import UwuSsh.Tunnel.Forwards

/-!
What the listener is told. A status is written in one step, read in another and told in a third, and others may step in
between. Of the newest tunnel of an id the listener was told last what is so, or somebody is about to tell of the id,
as long as no report comes too late.
-/
namespace UwuSsh.Tunnel

namespace World

variable {w w' : World}

/-! ### Reports -/

/-- Who has a report to make, of which tunnel. -/
def owing (w : World) : Party → Option (ℕ × Report)
  | .start => w.start.bind fun s => s.2.owes
  | .stop n => (w.stops n).bind fun stop => stop.place.owes
  | .task n => (w.tasks n).bind fun task => task.place.report.map (task.shared, ·)
  | .pipe n => (w.pipes n).bind fun pipe => pipe.place.report.map (pipe.shared, ·)

/-- Somebody is to tell about an id. -/
def Debt (w : World) (id : ℕ) : Prop := ∃ party o report, w.owing party = some (o, report) ∧ w.id o = id

/-- Told last is what is so, or somebody is to tell. -/
structure Reported (w : World) : Prop where
  newest : ∀ o < w.made, w.Newest o → w.told (w.id o) = some (w.status o) ∨ w.Debt (w.id o)
  made : ∀ id status, w.told id = some status → ∃ o < w.made, w.id o = id
  captured : ∀ party o status, w.owing party = some (o, .tell status) → status.id = w.id o

/-- A status is told in time: it is the newest tunnel's, as it is, or somebody is still to tell about the id. -/
def InTime (w : World) (party : Party) (o : ℕ) (status : TunnelStatus) : Prop :=
  (w.Newest o ∧ w.status o = status) ∨
    ∃ other o' report, other ≠ party ∧ w.owing other = some (o', report) ∧ w.id o' = w.id o

theorem on_of_owing {party : Party} {o : ℕ} {report : Report} (h : w.owing party = some (o, report)) :
    w.on party = some o := by
  cases party with
  | start =>
    obtain ⟨⟨call, place⟩, hcall, hplace⟩ := Option.bind_eq_some_iff.mp h
    rw [on, hcall]
    cases place with
    | reporting o' report' =>
      cases hplace
      rfl
    | failed o' report' =>
      cases hplace
      rfl
    | waiting old => cases hplace
    | making => cases hplace
    | asking o' => cases hplace
    | spawned o' n bound remote => cases hplace
  | stop n =>
    obtain ⟨⟨ids, place⟩, hstop, hplace⟩ := Option.bind_eq_some_iff.mp h
    rw [on, hstop]
    cases place with
    | reporting o' report' =>
      cases hplace
      rfl
    | next => cases hplace
    | waiting r => cases hplace
  | task n =>
    obtain ⟨task, htask, hplace⟩ := Option.bind_eq_some_iff.mp h
    obtain ⟨_, -, heq⟩ := Option.map_eq_some_iff.mp hplace
    cases heq
    rw [on, htask]
    rfl
  | pipe n =>
    obtain ⟨pipe, hpipe, hplace⟩ := Option.bind_eq_some_iff.mp h
    obtain ⟨_, -, heq⟩ := Option.map_eq_some_iff.mp hplace
    cases heq
    rw [on, hpipe]
    rfl

theorem Placed.owed (h : Placed w) {party : Party} {o : ℕ} {report : Report} (howes : w.owing party = some (o, report)) :
    o < w.made := h.bound party o (on_of_owing howes)

namespace Reported

variable (h : Reported w)

include h

/-- A step of one party that tells nothing. What it changes it has to report after it. -/
theorem goes (party : Party) (hothers : ∀ other, other ≠ party → w'.owing other = w.owing other)
    (hmade : w'.made = w.made) (hid : ∀ o, w'.id o = w.id o) (htold : w'.told = w.told)
    (howing : ∀ o report, w.owing party = some (o, report) → ∃ report', w'.owing party = some (o, report'))
    (hstatus : ∀ o, w'.status o = w.status o ∨ ∃ report, w'.owing party = some (o, report))
    (hcaptured : ∀ o status, w'.owing party = some (o, .tell status) → status = w.status o) : Reported w' where
  newest o ho hnewest := by
    rw [hmade] at ho
    have hold : w.Newest o := by simpa only [Newest, hmade, hid] using hnewest
    rw [htold, hid]
    have hdebt : ∀ other o' report, w'.owing other = some (o', report) → w.id o' = w.id o → w'.Debt (w.id o) :=
      fun other o' report howes hsame => ⟨other, o', report, howes, (hid o').trans hsame⟩
    obtain htold | ⟨other, o', report, howes, hsame⟩ := h.newest o ho hold
    · obtain hstatus | ⟨report, howes⟩ := hstatus o
      · rw [hstatus]
        exact .inl htold
      · exact .inr (hdebt party o report howes rfl)
    · by_cases hother : other = party
      · subst hother
        obtain ⟨report', howes⟩ := howing o' report howes
        exact .inr (hdebt other o' report' howes hsame)
      · exact .inr (hdebt other o' report ((hothers other hother).trans howes) hsame)
  made id status hs := by
    rw [htold] at hs
    obtain ⟨o, ho, hsame⟩ := h.made id status hs
    exact ⟨o, hmade ▸ ho, (hid o).trans hsame⟩
  captured other o status howes := by
    rw [hid]
    by_cases hother : other = party
    · subst hother
      rw [hcaptured o status howes]
      rfl
    · exact h.captured other o status ((hothers other hother).symm.trans howes)

/-- A step that is nobody's to report. -/
theorem calm (hparties : ∀ party, w'.owing party = w.owing party) (hmade : w'.made = w.made)
    (hstatus : ∀ o, w'.status o = w.status o) (htold : w'.told = w.told) : Reported w' where
  newest o ho hnewest := by
    have hid : ∀ o, w'.id o = w.id o := fun o => congrArg TunnelStatus.id (hstatus o)
    rw [hmade] at ho
    have hold : w.Newest o := by simpa only [Newest, hmade, hid] using hnewest
    rw [htold, hid, hstatus]
    refine (h.newest o ho hold).imp_right ?_
    rintro ⟨party, o', report, howes, hsame⟩
    exact ⟨party, o', report, (hparties party).trans howes, (hid o').trans hsame⟩
  made id status hs := by
    rw [htold] at hs
    obtain ⟨o, ho, hsame⟩ := h.made id status hs
    exact ⟨o, hmade ▸ ho, (congrArg TunnelStatus.id (hstatus o)).trans hsame⟩
  captured party o status howes := by
    rw [h.captured party o status ((hparties party).symm.trans howes)]
    exact (congrArg TunnelStatus.id (hstatus o)).symm

/-- A step that writes a status, and has it to report. -/
theorem writes {party : Party} {o : ℕ} (hbefore : w.owing party = none) (hafter : w'.owing party = some (o, .read))
    (hothers : ∀ other, other ≠ party → w'.owing other = w.owing other) (hmade : w'.made = w.made)
    (hid : ∀ o, w'.id o = w.id o) (hstatus : ∀ other, other ≠ o → w'.status other = w.status other)
    (htold : w'.told = w.told) : Reported w' := by
  refine h.goes party hothers hmade hid htold (fun o' report howes => ?_) (fun other => ?_) fun o' status howes => ?_
  · exact absurd (hbefore.symm.trans howes) (by simp)
  · by_cases ho : other = o
    · exact .inr ⟨.read, ho ▸ hafter⟩
    · exact .inl (hstatus other ho)
  · exact absurd (hafter.symm.trans howes) (by simp)

/-- A step that reads the status that it has to report. -/
theorem reads {party : Party} {o : ℕ} (hbefore : w.owing party = some (o, .read))
    (hafter : w'.owing party = some (o, .tell (w.status o)))
    (hothers : ∀ other, other ≠ party → w'.owing other = w.owing other) (hmade : w'.made = w.made)
    (hstatus : ∀ o, w'.status o = w.status o) (htold : w'.told = w.told) : Reported w' := by
  refine h.goes party hothers hmade (fun o => congrArg TunnelStatus.id (hstatus o)) htold (fun o' report howes => ?_)
    (fun other => .inl (hstatus other)) fun o' status howes => ?_
  · obtain rfl := congrArg Prod.fst (Option.some.inj (hbefore.symm.trans howes))
    exact ⟨_, hafter⟩
  · have heq := Option.some.inj (hafter.symm.trans howes)
    cases heq
    rfl

/-- A step that tells. -/
theorem tells (hplaced : Placed w) {party : Party} {o : ℕ} {status : TunnelStatus}
    (howing : w.owing party = some (o, .tell status))
    (hintime : w.InTime party o status) (hmade : w'.made = w.made) (hstatus : ∀ o, w'.status o = w.status o)
    (htold : w'.told = (w.tell status).told) (hdone : w'.owing party = none)
    (hothers : ∀ other, other ≠ party → w'.owing other = w.owing other) : Reported w' := by
  have hid : ∀ o, w'.id o = w.id o := fun o => congrArg TunnelStatus.id (hstatus o)
  have hself := h.captured party o status howing
  refine { newest := ?_, made := ?_, captured := ?_ }
  · intro x hx hnewest
    rw [hmade] at hx
    have hold : w.Newest x := by simpa only [Newest, hmade, hid] using hnewest
    rw [hid, hstatus]
    have hdebt : ∀ other o' report, other ≠ party → w.owing other = some (o', report) → w.id o' = w.id x →
        w'.Debt (w.id x) := fun other o' report hother howes hsame =>
      ⟨other, o', report, (hothers other hother).trans howes, (hid o').trans hsame⟩
    by_cases hsame : w.id x = w.id o
    · obtain ⟨hnow, rfl⟩ | ⟨other, o', report, hother, howes, hid'⟩ := hintime
      · have heq : x = o := Nat.le_antisymm (hnow x hx hsame) (hold o (hplaced.owed howing) hsame.symm)
        subst heq
        refine .inl ?_
        rw [htold]
        exact Function.update_self _ _ _
      · exact .inr (hdebt other o' report hother howes (hid'.trans hsame.symm))
    · have hold' : w'.told (w.id x) = w.told (w.id x) := by
        rw [htold]
        exact Function.update_of_ne (fun heq => hsame (heq.trans hself)) _ _
      rw [hold']
      obtain htold' | ⟨other, o', report, howes, hid'⟩ := h.newest x hx hold
      · exact .inl htold'
      · by_cases hother : other = party
        · subst hother
          have heq := congrArg Prod.fst (Option.some.inj (howing.symm.trans howes))
          exact absurd (hid'.symm.trans (congrArg w.id heq).symm) hsame
        · exact .inr (hdebt other o' report hother howes hid')
  · intro id s hs
    rw [htold] at hs
    obtain ⟨rfl, -⟩ | ⟨-, hold⟩ := update_some hs
    · exact ⟨o, hmade ▸ hplaced.owed howing, (hid o).trans hself.symm⟩
    · obtain ⟨x, hx, hsame⟩ := h.made id s hold
      exact ⟨x, hmade ▸ hx, (hid x).trans hsame⟩
  · intro other o' s howes
    rw [hid]
    by_cases hother : other = party
    · rw [hother, hdone] at howes
      cases howes
    · exact h.captured other o' s ((hothers other hother).symm.trans howes)

end Reported

/-- Only the party that moves owes something else than before. -/
theorem owing_stopBecomes (w : World) (n : ℕ) (after : Option StopCall) :
    (w.stopBecomes n after).owing (.stop n) = after.bind (fun stop => stop.place.owes) ∧
      ∀ other, other ≠ .stop n → (w.stopBecomes n after).owing other = w.owing other := by
  constructor
  · simp [owing, stopBecomes]
  · intro other hother
    cases other with
    | stop m =>
      have hm : m ≠ n := fun heq => hother (heq ▸ rfl)
      simp [owing, stopBecomes, hm]
    | start => rfl
    | task m => rfl
    | pipe m => rfl

theorem owing_taskBecomes (w : World) (n : ℕ) (after : Option Task) :
    (w.taskBecomes n after).owing (.task n) = after.bind (fun task => task.place.report.map (task.shared, ·)) ∧
      ∀ other, other ≠ .task n → (w.taskBecomes n after).owing other = w.owing other := by
  constructor
  · simp [owing, taskBecomes]
  · intro other hother
    cases other with
    | task m =>
      have hm : m ≠ n := fun heq => hother (heq ▸ rfl)
      simp [owing, taskBecomes, hm]
    | start => rfl
    | stop m => rfl
    | pipe m => rfl

theorem owing_pipeBecomes (w : World) (n : ℕ) (after : Option Pipe) :
    (w.pipeBecomes n after).owing (.pipe n) = after.bind (fun pipe => pipe.place.report.map (pipe.shared, ·)) ∧
      ∀ other, other ≠ .pipe n → (w.pipeBecomes n after).owing other = w.owing other := by
  constructor
  · simp [owing, pipeBecomes]
  · intro other hother
    cases other with
    | pipe m =>
      have hm : m ≠ n := fun heq => hother (heq ▸ rfl)
      simp [owing, pipeBecomes, hm]
    | start => rfl
    | stop m => rfl
    | task m => rfl

theorem owing_starts (w : World) (call : StartCall) (place : StartAt) :
    (w.starts call place).owing .start = place.owes ∧
      ∀ other, other ≠ .start → (w.starts call place).owing other = w.owing other := by
  refine ⟨rfl, fun other hother => ?_⟩
  cases other with
  | start => exact absurd rfl hother
  | stop m => rfl
  | task m => rfl
  | pipe m => rfl

theorem status_set {o other : ℕ} (state : TunnelState) (h : other ≠ o) : (w.set o state).status other = w.status other :=
  (w.status_write o (fun status => { status with state }) other).trans (if_neg h)

theorem id_set {o : ℕ} (state : TunnelState) (other : ℕ) : (w.set o state).id other = w.id other :=
  (Same.of_set rfl rfl : Same w (w.set o state)).id other

/-- What `finish` changes is no status, and nothing that anybody owes. -/
theorem finish_calm (w : World) (id : ℕ) (r : Running) :
    ((w.keep id none).finish r).owing = w.owing ∧ ((w.keep id none).finish r).made = w.made ∧
      (∀ o, ((w.keep id none).finish r).status o = w.status o) ∧ ((w.keep id none).finish r).told = w.told := by
  obtain ⟨link, heq, -⟩ := (w.keep id none).finish_eq r
  rw [heq]
  refine ⟨funext fun party => by cases party <;> rfl, rfl, fun o => ?_, rfl⟩
  rw [World.status]
  change (((w.keep id none).raise r.shared).shared o).status = _
  rw [shared_raise]
  split <;> rfl

namespace Reported

variable (h : Reported w)

include h

theorem goTask (hplaced : Placed w) {n : ℕ} {task : Task} (htask : w.tasks n = some task) {reply : Reply}
    (hstep : w.goTask n task.shared task.kind reply task.place = some w')
    (hintime : ∀ o status, w.owing (.task n) = some (o, .tell status) → w.InTime (.task n) o status) : Reported w' := by
  have hnow : w.owing (.task n) = task.place.report.map (task.shared, ·) := by
    rw [owing, htask]
    rfl
  obtain ⟨hplace, -, rfl⟩ | ⟨hplace, -, -, rfl⟩ | ⟨hplace, rfl⟩ | ⟨status, hplace, rfl⟩ := goTask_cases hstep
  all_goals rw [hplace] at hnow
  · obtain ⟨hself, hothers⟩ := w.owing_taskBecomes n none
    refine h.calm (fun party => ?_) rfl (fun _ => rfl) rfl
    by_cases hparty : party = .task n
    · rw [hparty, hself, hnow]
      rfl
    · exact hothers party hparty
  · obtain ⟨hself, hothers⟩ := (w.set task.shared (.failed .connectionLost)).owing_taskBecomes n
      (some ⟨task.shared, task.kind, .reporting .read⟩)
    exact h.writes hnow hself hothers rfl (id_set _) (fun _ => status_set _) rfl
  · obtain ⟨hself, hothers⟩ := w.owing_taskBecomes n
      (some ⟨task.shared, task.kind, .reporting (.tell (w.status task.shared))⟩)
    exact h.reads hnow hself hothers rfl (fun _ => rfl) rfl
  · obtain ⟨hself, hothers⟩ := (w.tell status).owing_taskBecomes n none
    exact h.tells hplaced hnow (hintime _ _ hnow) rfl (fun _ => rfl) rfl hself hothers

theorem goPipe (hplaced : Placed w) {n : ℕ} {pipe : Pipe} (hpipe : w.pipes n = some pipe) {reply : Reply}
    (hstep : w.goPipe n pipe.shared reply pipe.place = some w')
    (hintime : ∀ o status, w.owing (.pipe n) = some (o, .tell status) → w.InTime (.pipe n) o status) : Reported w' := by
  have hnow : w.owing (.pipe n) = pipe.place.report.map (pipe.shared, ·) := by
    rw [owing, hpipe]
    rfl
  obtain ⟨hplace, f, after, hid, -, hafter, rfl⟩ | ⟨hplace, rfl⟩ | ⟨hplace, after, hafter, rfl⟩ |
    ⟨status, hplace, after, hafter, rfl⟩ := goPipe_cases hstep
  all_goals rw [hplace] at hnow
  · obtain ⟨hself, hothers⟩ := (w.write pipe.shared f).owing_pipeBecomes n (some ⟨pipe.shared, after⟩)
    rw [Option.bind_some, hafter] at hself
    exact h.writes hnow hself hothers rfl (Same.of_write rfl hid rfl : Same w (w.write pipe.shared f)).id
      (fun other ho => (w.status_write pipe.shared f other).trans (if_neg ho)) rfl
  · obtain ⟨hself, hothers⟩ := w.owing_pipeBecomes n none
    refine h.calm (fun party => ?_) rfl (fun _ => rfl) rfl
    by_cases hparty : party = .pipe n
    · rw [hparty, hself, hnow]
      rfl
    · exact hothers party hparty
  · obtain ⟨hself, hothers⟩ := w.owing_pipeBecomes n (some ⟨pipe.shared, after⟩)
    rw [Option.bind_some, hafter] at hself
    exact h.reads hnow hself hothers rfl (fun _ => rfl) rfl
  · obtain ⟨hself, hothers⟩ := (w.tell status).owing_pipeBecomes n after
    have hdone : ((w.tell status).pipeBecomes n after).owing (.pipe n) = none := by
      rw [hself]
      cases hcase : after with
      | none => rfl
      | some p =>
        rw [Option.bind_some, (hafter p hcase).2]
        rfl
    exact h.tells hplaced hnow (hintime _ _ hnow) rfl (fun _ => rfl) rfl hdone hothers

theorem goStop (hplaced : Placed w) {n : ℕ} {stop : StopCall} (hstop : w.stops n = some stop)
    (hstep : w.goStop n stop.ids stop.place = some w')
    (hintime : ∀ o status, w.owing (.stop n) = some (o, .tell status) → w.InTime (.stop n) o status) : Reported w' := by
  have hnow : w.owing (.stop n) = stop.place.owes := by
    rw [owing, hstop]
    rfl
  obtain ⟨hplace, rest, rfl⟩ | ⟨hplace, hnone, id, rest, r, hr, rfl⟩ | ⟨r, hplace, rfl⟩ | ⟨o, hplace, rfl⟩ |
    ⟨o, status, hplace, rfl⟩ := goStop_cases hstep
  all_goals rw [hplace] at hnow
  · obtain ⟨hself, hothers⟩ := w.owing_stopBecomes n (rest.map fun rest => ⟨rest, .next⟩)
    refine h.calm (fun party => ?_) rfl (fun _ => rfl) rfl
    by_cases hparty : party = .stop n
    · rw [hparty, hself, hnow]
      cases rest <;> rfl
    · exact hothers party hparty
  · obtain ⟨howing, hmade, hstatus, htold⟩ := w.finish_calm id r
    obtain ⟨hself, hothers⟩ := ((w.keep id none).finish r).owing_stopBecomes n (some ⟨rest, .waiting r⟩)
    refine h.calm (fun party => ?_) hmade hstatus htold
    by_cases hparty : party = .stop n
    · rw [hparty, hself, hnow]
      rfl
    · rw [hothers party hparty, howing]
  · obtain ⟨hself, hothers⟩ := (w.set r.shared .stopped).owing_stopBecomes n
      (some ⟨stop.ids, .reporting r.shared .read⟩)
    exact h.writes hnow hself hothers rfl (id_set _) (fun _ => status_set _) rfl
  · obtain ⟨hself, hothers⟩ := w.owing_stopBecomes n (some ⟨stop.ids, .reporting o (.tell (w.status o))⟩)
    exact h.reads hnow hself hothers rfl (fun _ => rfl) rfl
  · obtain ⟨hself, hothers⟩ := (w.tell status).owing_stopBecomes n (some ⟨stop.ids, .next⟩)
    exact h.tells hplaced hnow (hintime _ _ hnow) rfl (fun _ => rfl) rfl hself hothers

/-- A start goes on to where it has nothing to report, as before. -/
theorem startCalm {v : World} (hbefore : w.owing .start = none) (call : StartCall) {place : StartAt} (hafter : place.owes = none)
    (hparties : v.owing = w.owing) (hmade : v.made = w.made) (hstatus : ∀ o, v.status o = w.status o)
    (htold : v.told = w.told) : Reported (v.starts call place) := by
  obtain ⟨hself, hothers⟩ := v.owing_starts call place
  refine h.calm (fun party => ?_) hmade hstatus htold
  by_cases hparty : party = .start
  · rw [hparty, hself, hbefore, hafter]
  · rw [hothers party hparty, hparties]

theorem begins (hnone : w.start = none) (call : StartCall) : Reported (w.begin call) := by
  have hbefore : w.owing .start = none := by
    rw [owing, hnone]
    rfl
  unfold World.begin
  split
  · next running _ =>
    split
    · exact h
    · obtain ⟨howing, hmade, hstatus, htold⟩ := w.finish_calm call.id running
      exact h.startCalm hbefore call rfl howing hmade hstatus htold
  · exact h.startCalm hbefore call rfl rfl rfl (fun _ => rfl) rfl

/-- A start has failed, and is to report it. -/
theorem fails {v : World} {call : StartCall} {o : ℕ} (hbefore : w.owing .start = none) (hparties : v.owing = w.owing)
    (hmade : v.made = w.made) (hshared : v.shared = w.shared) (htold : v.told = w.told) (error : TunnelError) :
    Reported (v.fails call o error) := by
  obtain ⟨hself, hothers⟩ := (v.set o (.failed error)).owing_starts call (.failed o .read)
  have hstatus : ∀ other, v.status other = w.status other := fun other => by rw [World.status, hshared]; rfl
  refine h.writes hbefore hself (fun other hother => ?_) hmade (fun other => ?_) (fun other ho => ?_) htold
  · exact (hothers other hother).trans (congrFun hparties other)
  · exact (id_set (w := v) (.failed error) other).trans (congrArg TunnelStatus.id (hstatus other))
  · exact (status_set (w := v) (.failed error) ho).trans (hstatus other)

/-- A start makes its tunnel, and tells of it. -/
theorem created (hplaced : Placed w) {call : StartCall} (hcall : w.start = some (call, .making)) :
    Reported ((w.create call).starts call (.asking w.made)) := by
  have hparties : ∀ party, ((w.create call).starts call (.asking w.made)).owing party = w.owing party := by
    intro party
    cases party with
    | start =>
      rw [owing, owing, hcall]
      rfl
    | stop n => rfl
    | task n => rfl
    | pipe n => rfl
  have hshared : ∀ o < w.made, ((w.create call).starts call (.asking w.made)).shared o = w.shared o :=
    fun o ho => Placed.shared_create ho
  have hstatus : ∀ o < w.made, ((w.create call).starts call (.asking w.made)).status o = w.status o :=
    fun o ho => congrArg Shared.status (hshared o ho)
  have hids : ∀ o < w.made, ((w.create call).starts call (.asking w.made)).id o = w.id o :=
    fun o ho => congrArg TunnelStatus.id (hstatus o ho)
  have hself : ((w.create call).starts call (.asking w.made)).shared w.made = call.fresh := Function.update_self _ _ _
  have hnew : ((w.create call).starts call (.asking w.made)).status w.made = call.fresh.status :=
    congrArg Shared.status hself
  have hid : ((w.create call).starts call (.asking w.made)).id w.made = call.id := congrArg TunnelStatus.id hnew
  have htold : ∀ id, id ≠ call.id → ((w.create call).starts call (.asking w.made)).told id = w.told id :=
    fun id hne => Function.update_of_ne hne _ _
  refine { newest := ?_, made := ?_, captured := ?_ }
  · intro o ho hnewest
    obtain hlt | rfl : o < w.made ∨ o = w.made := Nat.lt_succ_iff_lt_or_eq.mp ho
    · have hne : w.id o ≠ call.id := by
        intro heq
        have hle := hnewest w.made (Nat.lt_succ_self _) (hid.trans (heq.symm.trans (hids o hlt).symm))
        omega
      have hold : w.Newest o := by
        intro other hother heq
        exact hnewest other (Nat.lt_succ_of_lt hother) ((hids other hother).trans (heq.trans (hids o hlt).symm))
      rw [hids o hlt, hstatus o hlt, htold _ hne]
      refine (h.newest o hlt hold).imp_right ?_
      rintro ⟨party, o', report, howes, hsame⟩
      exact ⟨party, o', report, (hparties party).trans howes, (hids o' (hplaced.owed howes)).trans hsame⟩
    · rw [hid, hnew]
      exact .inl (Function.update_self _ _ _)
  · intro id status hs
    by_cases hself : id = call.id
    · exact ⟨w.made, Nat.lt_succ_self _, hid.trans hself.symm⟩
    · rw [htold id hself] at hs
      obtain ⟨o, ho, hsame⟩ := h.made id status hs
      exact ⟨o, Nat.lt_succ_of_lt ho, (hids o ho).trans hsame⟩
  · intro party o status howes
    have hold := (hparties party).symm.trans howes
    rw [hids o (hplaced.owed hold)]
    exact h.captured party o status hold

theorem goStart (hplaced : Placed w) {call : StartCall} {place : StartAt} (hcall : w.start = some (call, place))
    {reply : Reply} (hstep : w.goStart call reply place = some w')
    (hintime : ∀ o status, w.owing .start = some (o, .tell status) → w.InTime .start o status) : Reported w' := by
  have hnow : w.owing .start = place.owes := by
    rw [owing, hcall]
    rfl
  cases place with
  | waiting old =>
    simp only [World.goStart] at hstep
    split at hstep
    · obtain rfl := Option.some.inj hstep
      exact h.startCalm hnow call rfl rfl rfl (fun _ => rfl) rfl
    · cases hstep
  | making =>
    obtain rfl := Option.some.inj hstep
    have hmade := h.created hplaced hcall
    have hlinked : ∀ v : World, v.owing = ((w.create call).starts call (.asking w.made)).owing →
        v.made = (w.create call).made → v.shared = (w.create call).shared → v.told = (w.create call).told →
          Reported (v.starts call (.asking w.made)) := fun v howing hm hs ht =>
      hmade.startCalm rfl call rfl howing hm (fun o => by rw [World.status, hs]; rfl) ht
    have howing : (w.create call).owing = ((w.create call).starts call (.asking w.made)).owing := by
      funext party
      cases party with
      | start =>
        rw [owing, owing]
        change (w.start.bind fun s => s.2.owes) = _
        rw [hcall]
        rfl
      | stop n => rfl
      | task n => rfl
      | pipe n => rfl
    obtain ⟨-, heq⟩ | ⟨error, heq⟩ | ⟨-, -, -, heq⟩ := (w.create call).asks_cases call w.made
    · rw [heq]
      exact hmade
    · rw [heq]
      exact hmade.fails rfl howing rfl rfl rfl error
    · rw [heq]
      exact hlinked _ howing rfl rfl rfl
  | asking o =>
    have hspawned : ∀ (v : World) (bound : UInt16) (remote : Option UInt32), v.owing = w.owing → v.tasks = w.tasks →
        v.spawned = w.spawned → v.made = w.made → v.shared = w.shared → v.told = w.told →
          Reported (v.spawns call o bound remote) := by
      intro v bound remote howing htasks hspawned hmade hshared htold
      refine h.startCalm (v := { v with
        tasks := Function.update v.tasks v.spawned (some { shared := o, kind := call.spec.kind, place := .waiting })
        spawned := v.spawned + 1 }) hnow call rfl ?_ hmade (fun o => by rw [World.status]; exact congrArg (fun f => (f o).status) hshared) htold
      rw [← howing]
      funext party
      cases party with
      | task n =>
        by_cases hn : n = v.spawned
        · subst hn
          have hunborn := (hplaced.unborn v.spawned (Nat.le_of_eq hspawned.symm)).2.1
          simp [owing, htasks, hunborn, TaskAt.report]
        · simp [owing, hn]
      | start => rfl
      | stop n => rfl
      | pipe n => rfl
    obtain ⟨-, error, rfl⟩ | ⟨-, -, error, rfl⟩ | ⟨-, bound, rfl⟩ | ⟨-, -, bound, rfl⟩ |
      ⟨-, -, port, bound, -, rfl⟩ := asked_cases hstep
    · exact h.fails hnow rfl rfl rfl rfl error
    · exact h.fails (v := w.forward call.link call.spec.bindPort.toUInt32 none) hnow rfl rfl rfl rfl error
    · exact hspawned w bound none rfl rfl rfl rfl rfl rfl
    · exact hspawned w bound _ rfl rfl rfl rfl rfl rfl
    · exact hspawned (w.forward call.link port (some o)) bound _ rfl rfl rfl rfl rfl rfl
  | spawned o task bound remote =>
    obtain rfl := Option.some.inj hstep
    obtain ⟨hself, hothers⟩ := ((w.keep call.id (some ⟨o, some task, some call.link, remote⟩)).set o
      (.running bound)).owing_starts call (.reporting o .read)
    exact h.writes hnow hself hothers rfl (id_set _) (fun _ => status_set _) rfl
  | reporting o report =>
    cases report with
    | read =>
      obtain rfl := Option.some.inj hstep
      obtain ⟨hself, hothers⟩ := w.owing_starts call (.reporting o (.tell (w.status o)))
      exact h.reads hnow hself hothers rfl (fun _ => rfl) rfl
    | tell status =>
      obtain rfl := Option.some.inj hstep
      refine h.tells hplaced hnow (hintime _ _ hnow) rfl (fun _ => rfl) rfl rfl fun other hother => ?_
      cases other with
      | start => exact absurd rfl hother
      | stop m => rfl
      | task m => rfl
      | pipe m => rfl
  | failed o report =>
    cases report with
    | read =>
      obtain rfl := Option.some.inj hstep
      obtain ⟨hself, hothers⟩ := w.owing_starts call (.failed o (.tell (w.status o)))
      exact h.reads hnow hself hothers rfl (fun _ => rfl) rfl
    | tell status =>
      obtain rfl := Option.some.inj hstep
      refine h.tells hplaced hnow (hintime _ _ hnow) rfl (fun _ => rfl) rfl rfl fun other hother => ?_
      cases other with
      | start => exact absurd rfl hother
      | stop m => rfl
      | task m => rfl
      | pipe m => rfl

end Reported

end World

end UwuSsh.Tunnel

import UwuSsh.Lib.Run
import Mathlib.Data.Set.Lattice
import Mathlib.Order.BoundedOrder.Basic
import Mathlib.Logic.Function.Basic
import Mathlib.Order.Lattice

/-!
One register, replicated on any number of peers through one server that numbers
every write it takes. Versions are linearly ordered and the greater one wins; the
least version stands for nothing written. A write goes up with the number it is based
on and is taken only when that is the server's current number; otherwise the
current version comes back. Peers read the server page by page up to a cursor.
A version in `tomb` may be passed over by a peer that holds nothing, and a peer may
give its copy up: it then remembers only what it gave up.
-/
namespace Register

variable {ι V : Type} [LinearOrder V] [OrderBot V]

/-- A peer's copy: what it holds, whether that still has to go up, the number of
the server version it was last told about, and the greatest version it gave up. -/
structure Cell (V : Type) where
  version : V
  dirty : Bool
  base : ℕ
  mark : V

/-- The copy of a peer that never heard of the register. -/
def Cell.blank : Cell V := { version := ⊥, dirty := false, base := 0, mark := ⊥ }

/-- The greatest version a copy answers for: the one it holds or one it gave up. -/
def Cell.met (c : Cell V) : V := c.version ⊔ c.mark

def Cell.giveUp (c : Cell V) : Cell V :=
  { version := ⊥, dirty := false, base := 0, mark := c.mark ⊔ c.version }

/-- A version together with a server number. -/
abbrev Numbered (V : Type) := V × ℕ

/-- Where a peer stands between two of its own operations. -/
inductive Phase (V : Type)
  | idle
  | offered (push : Option (Numbered V))
  | answered (taken inbound : Option (Numbered V))
  | merging (inbound : Option (Numbered V))
  | paged (inbound : Option (Numbered V)) (bound : ℕ)
  | applied (bound : ℕ)

structure Peer (V : Type) where
  cell : Cell V
  cursor : ℕ
  phase : Phase V

structure State (ι V : Type) where
  current : Option (Numbered V)
  seq : ℕ
  peers : ι → Peer V
  /-- Every version each peer ever wrote. -/
  written : ι → Set V

/-- What a peer does with one version that comes down. -/
inductive Absorb (tomb : V → Prop) : Cell V → Numbered V → Cell V → Prop
  | same (c : Cell V) (q : ℕ) : Absorb tomb c (c.version, q) { c with dirty := false, base := q }
  | keep (c : Cell V) {u : V} (q : ℕ) : u < c.version →
      Absorb tomb c (u, q) { c with base := q }
  | take (c : Cell V) {u : V} (q : ℕ) : c.version < u →
      Absorb tomb c (u, q) { c with version := u, dirty := false, base := q }
  | pass (c : Cell V) {u : V} (q : ℕ) : c.version = ⊥ → c.dirty = false → tomb u →
      Absorb tomb c (u, q) c
  | yield (c : Cell V) (u : V) (q : ℕ) : Absorb tomb c (u, q) { c with mark := c.mark ⊔ u }

/-- What a peer does with several versions, one after the other; it may give its
copy up anywhere in between. -/
inductive Digest (tomb : V → Prop) : Cell V → List (Numbered V) → Cell V → Prop
  | nil (c : Cell V) : Digest tomb c [] c
  | giveUp {c d : Cell V} {ms : List (Numbered V)} :
      Digest tomb c.giveUp ms d → Digest tomb c ms d
  | absorb {c d e : Cell V} {m : Numbered V} {ms : List (Numbered V)} :
      Absorb tomb c m e → Digest tomb e ms d → Digest tomb c (m :: ms) d

inductive AbsorbOption (tomb : V → Prop) : Cell V → Option (Numbered V) → Cell V → Prop
  | none (c : Cell V) : AbsorbOption tomb c none c
  | some {c d : Cell V} {m : Numbered V} : Absorb tomb c m d → AbsorbOption tomb c (some m) d

/-- The server's answer to one push, as far as this register goes: other
registers may have used up numbers as well. -/
inductive Serve : Option (Numbered V) × ℕ → Option (Numbered V) →
    Option (Numbered V) × ℕ → Option (Numbered V) → Option (Numbered V) → Prop
  | other {current : Option (Numbered V)} {seq seq' : ℕ} : seq ≤ seq' →
      Serve (current, seq) none (current, seq') none none
  | accept {current : Option (Numbered V)} {seq seq' q : ℕ} {v : V} {base : ℕ} :
      (∀ m ∈ current, m.2 = base) → seq < q → q ≤ seq' →
      Serve (current, seq) (some (v, base)) (some (v, q), seq') (some (v, q)) none
  | conflict {m : Numbered V} {seq seq' : ℕ} {v : V} {base : ℕ} : seq ≤ seq' →
      Serve (some m, seq) (some (v, base)) (some m, seq') none (some m)

/-- A page past `cursor` and up to `bound` holds the current version exactly when
its number is in that range. -/
def PageOf (current : Option (Numbered V)) (cursor bound : ℕ) (inbound : Option (Numbered V)) :
    Prop :=
  (∀ m ∈ inbound, current = some m ∧ cursor < m.2) ∧
    (∀ m ∈ current, cursor < m.2 → m.2 ≤ bound → inbound = some m)

/-- The state with one peer replaced. -/
def State.setPeer [DecidableEq ι] (s : State ι V) (i : ι) (p : Peer V) : State ι V :=
  { s with peers := Function.update s.peers i p }

inductive Step [DecidableEq ι] (tomb : V → Prop) : State ι V → State ι V → Prop
  | write (s : State ι V) (i : ι) (v : V) : (s.peers i).cell.version < v →
      Step tomb s
        { s with
          peers := Function.update s.peers i
            { s.peers i with cell := { (s.peers i).cell with version := v, dirty := true } }
          written := Function.update s.written i (insert v (s.written i)) }
  | offer (s : State ι V) (i : ι) (push : Option (Numbered V)) :
      (∀ m ∈ push, (s.peers i).cell.dirty = true ∧
        m = ((s.peers i).cell.version, (s.peers i).cell.base)) →
      Step tomb s (s.setPeer i { s.peers i with phase := .offered push })
  | serve (s : State ι V) (i : ι) {push taken inbound current' : Option (Numbered V)} {seq' : ℕ} :
      (s.peers i).phase = .offered push →
      Serve (s.current, s.seq) push (current', seq') taken inbound →
      Step tomb s
        ({ s with current := current', seq := seq' }.setPeer i
          { s.peers i with phase := .answered taken inbound })
  | mark (s : State ι V) (i : ι) {taken inbound : Option (Numbered V)} (c : Cell V) :
      (s.peers i).phase = .answered taken inbound →
      c = (s.peers i).cell ∨ (∃ q, taken = some ((s.peers i).cell.version, q) ∧
        c = { (s.peers i).cell with dirty := false, base := q }) →
      Step tomb s (s.setPeer i { s.peers i with cell := c, phase := .merging inbound })
  | merge (s : State ι V) (i : ι) {inbound : Option (Numbered V)} (c : Cell V) :
      (s.peers i).phase = .merging inbound → AbsorbOption tomb (s.peers i).cell inbound c →
      Step tomb s (s.setPeer i { s.peers i with cell := c, phase := .idle })
  | fetch (s : State ι V) (i : ι) (inbound : Option (Numbered V)) (bound : ℕ) :
      bound ≤ s.seq → PageOf s.current (s.peers i).cursor bound inbound →
      Step tomb s (s.setPeer i { s.peers i with phase := .paged inbound bound })
  | apply (s : State ι V) (i : ι) {inbound : Option (Numbered V)} {bound : ℕ} (c : Cell V) :
      (s.peers i).phase = .paged inbound bound → AbsorbOption tomb (s.peers i).cell inbound c →
      Step tomb s (s.setPeer i { s.peers i with cell := c, phase := .applied bound })
  | advance (s : State ι V) (i : ι) {bound : ℕ} :
      (s.peers i).phase = .applied bound →
      Step tomb s (s.setPeer i { s.peers i with cursor := bound, phase := .idle })
  | giveUp (s : State ι V) (i : ι) :
      Step tomb s (s.setPeer i { s.peers i with cell := (s.peers i).cell.giveUp })
  | cut (s : State ι V) (i : ι) :
      Step tomb s (s.setPeer i { s.peers i with phase := .idle })
  | rewind (s : State ι V) (i : ι) :
      Step tomb s (s.setPeer i { s.peers i with cursor := 0, phase := .idle })

/-- Nothing written anywhere, and every peer at the start. -/
def initial : State ι V where
  current := none
  seq := 0
  peers := fun _ => { cell := .blank, cursor := 0, phase := .idle }
  written := fun _ => ∅

/-- What is known of a version on its way down: it is the current one, or an
older one whose successor lies beyond the peer's cursor. -/
def Valid (current : Option (Numbered V)) (all : Set V) (cursor : ℕ) (m : Numbered V) : Prop :=
  m.1 ∈ all ∧ ∃ cur ∈ current, m.1 ≤ cur.1 ∧ (m = cur ∨ (m.2 < cur.2 ∧ cursor < cur.2))

/-- A copy has caught up with the current version if that is numbered within `bound`. -/
def Knows (tomb : V → Prop) (current : Option (Numbered V)) (c : Cell V) (bound : ℕ) : Prop :=
  ∀ cur ∈ current, cur.2 ≤ bound → cur.1 ≤ c.met ∨ (tomb cur.1 ∧ (c.version = ⊥ ∨ c.dirty = true))

def PhaseInv (tomb : V → Prop) (current : Option (Numbered V)) (seq : ℕ) (all : Set V)
    (cursor : ℕ) (c : Cell V) : Phase V → Prop
  | .idle => True
  | .offered push => ∀ m ∈ push, m.1 ∈ all ∧ m.2 ≤ seq ∧ ∀ cur ∈ current, cur.2 = m.2 → cur.1 ≤ m.1
  | .answered taken inbound =>
      (∀ m ∈ taken, Valid current all cursor m ∧ cursor < m.2) ∧
        ∀ m ∈ inbound, Valid current all cursor m
  | .merging inbound => ∀ m ∈ inbound, Valid current all cursor m
  | .paged inbound bound =>
      bound ≤ seq ∧ (∀ m ∈ inbound, Valid current all cursor m) ∧
        ∀ cur ∈ current, cur.2 ≤ bound → cur.2 ≤ cursor ∨ inbound = some cur
  | .applied bound => bound ≤ seq ∧ Knows tomb current c bound

/-- What holds of one copy against the server. -/
structure CellInv (tomb : V → Prop) (current : Option (Numbered V)) (seq : ℕ) (all mine : Set V)
    (cursor : ℕ) (c : Cell V) : Prop where
  base_le : c.base ≤ seq
  based : ∀ cur ∈ current, cur.2 = c.base → cur.1 ≤ c.version
  knows : Knows tomb current c cursor
  clean : c.dirty = false → c.version = ⊥ ∨ ∃ cur ∈ current, c.version ≤ cur.1
  held : (c.version = ⊥ ∧ c.dirty = false) ∨ c.version ∈ all
  marked : c.mark = ⊥ ∨ c.mark ∈ all
  kept : ∀ v ∈ mine, (∃ cur ∈ current, v ≤ cur.1) ∨ (c.dirty = true ∧ v ≤ c.version) ∨ v ≤ c.mark

structure PeerInv (tomb : V → Prop) (current : Option (Numbered V)) (seq : ℕ) (all mine : Set V)
    (p : Peer V) : Prop where
  cursor_le : p.cursor ≤ seq
  cell : CellInv tomb current seq all mine p.cursor p.cell
  phase : PhaseInv tomb current seq all p.cursor p.cell p.phase

def State.all (s : State ι V) : Set V := ⋃ i, s.written i

structure Inv (tomb : V → Prop) (s : State ι V) : Prop where
  positive : ∀ v ∈ s.all, ⊥ < v
  current_mem : ∀ cur ∈ s.current, 0 < cur.2 ∧ cur.2 ≤ s.seq ∧ cur.1 ∈ s.all
  peer : ∀ i, PeerInv tomb s.current s.seq s.all (s.written i) (s.peers i)

/-- How the server moves: numbers are used up, and a greater version may come
under a number nobody has seen. -/
inductive Later (current : Option (Numbered V)) (seq : ℕ) : Option (Numbered V) → ℕ → Prop
  | same {seq' : ℕ} : seq ≤ seq' → Later current seq current seq'
  | raise {seq' : ℕ} {m : Numbered V} : (∀ cur ∈ current, cur.1 ≤ m.1) → seq < m.2 → m.2 ≤ seq' →
      Later current seq (some m) seq'

omit [OrderBot V] in
theorem Later.seq_le {current current' : Option (Numbered V)} {seq seq' : ℕ}
    (h : Later current seq current' seq') : seq ≤ seq' := by
  cases h with
  | same h => exact h
  | raise _ hlt hle => omega

section later

variable {tomb : V → Prop} {current current' : Option (Numbered V)} {seq seq' : ℕ}
  {all all' mine : Set V}

omit [OrderBot V] in
theorem Valid.later (hlater : Later current seq current' seq')
    (hcur : ∀ cur ∈ current, cur.2 ≤ seq) (hall : all ⊆ all') {cursor : ℕ} (hcursor : cursor ≤ seq)
    {m : Numbered V} (h : Valid current all cursor m) : Valid current' all' cursor m := by
  obtain ⟨hmem, cur, hcurrent, hle, hnum⟩ := h
  refine ⟨hall hmem, ?_⟩
  cases hlater with
  | same => exact ⟨cur, hcurrent, hle, hnum⟩
  | @raise _ new hnew hlt =>
    have hcurle := hcur cur hcurrent
    refine ⟨new, rfl, hle.trans (hnew cur hcurrent), Or.inr ⟨?_, by omega⟩⟩
    rcases hnum with rfl | ⟨hlt', -⟩
    · omega
    · omega

theorem Knows.later (hlater : Later current seq current' seq') {c : Cell V} {bound : ℕ}
    (hbound : bound ≤ seq) (h : Knows tomb current c bound) : Knows tomb current' c bound := by
  cases hlater with
  | same => exact h
  | raise _ hlt =>
    rintro cur ⟨⟩ hle
    omega

theorem CellInv.later (hlater : Later current seq current' seq') (hall : all ⊆ all') {cursor : ℕ}
    (hcursor : cursor ≤ seq) {c : Cell V} (h : CellInv tomb current seq all mine cursor c) :
    CellInv tomb current' seq' all' mine cursor c where
  base_le := h.base_le.trans hlater.seq_le
  based := by
    cases hlater with
    | same => exact h.based
    | raise _ hlt =>
      rintro cur ⟨⟩ heq
      have hbase := h.base_le
      omega
  knows := h.knows.later hlater hcursor
  clean := by
    intro hclean
    refine (h.clean hclean).imp_right ?_
    rintro ⟨cur, hcurrent, hle⟩
    cases hlater with
    | same => exact ⟨cur, hcurrent, hle⟩
    | @raise _ new hnew => exact ⟨new, rfl, hle.trans (hnew cur hcurrent)⟩
  held := h.held.imp_right fun hmem => hall hmem
  marked := h.marked.imp_right fun hmem => hall hmem
  kept := by
    intro v hv
    refine (h.kept v hv).imp_left ?_
    rintro ⟨cur, hcurrent, hle⟩
    cases hlater with
    | same => exact ⟨cur, hcurrent, hle⟩
    | @raise _ new hnew => exact ⟨new, rfl, hle.trans (hnew cur hcurrent)⟩

theorem PhaseInv.later (hlater : Later current seq current' seq')
    (hcur : ∀ cur ∈ current, cur.2 ≤ seq) (hall : all ⊆ all') {cursor : ℕ} {c : Cell V}
    {phase : Phase V} (hcursor : cursor ≤ seq) (h : PhaseInv tomb current seq all cursor c phase) :
    PhaseInv tomb current' seq' all' cursor c phase := by
  have hvalid : ∀ m, Valid current all cursor m → Valid current' all' cursor m :=
    fun m hm => hm.later hlater hcur hall hcursor
  cases phase with
  | idle => trivial
  | offered push =>
    intro m hm
    obtain ⟨hmem, hle, hbase⟩ := h m hm
    refine ⟨hall hmem, hle.trans hlater.seq_le, ?_⟩
    cases hlater with
    | same => exact hbase
    | raise _ hlt =>
      rintro cur ⟨⟩ heq
      omega
  | answered taken inbound =>
    exact ⟨fun m hm => ⟨hvalid m (h.1 m hm).1, (h.1 m hm).2⟩, fun m hm => hvalid m (h.2 m hm)⟩
  | merging inbound => exact fun m hm => hvalid m (h m hm)
  | paged inbound bound =>
    obtain ⟨hbound, hin, hpage⟩ := h
    refine ⟨hbound.trans hlater.seq_le, fun m hm => hvalid m (hin m hm), ?_⟩
    cases hlater with
    | same => exact hpage
    | raise _ hlt =>
      rintro cur ⟨⟩ hle
      omega
  | applied bound => exact ⟨h.1.trans hlater.seq_le, h.2.later hlater h.1⟩

theorem PeerInv.later (hlater : Later current seq current' seq')
    (hcur : ∀ cur ∈ current, cur.2 ≤ seq) (hall : all ⊆ all') {p : Peer V}
    (h : PeerInv tomb current seq all mine p) : PeerInv tomb current' seq' all' mine p where
  cursor_le := h.cursor_le.trans hlater.seq_le
  cell := h.cell.later hlater hall h.cursor_le
  phase := h.phase.later hlater hcur hall h.cursor_le

end later

section absorb

variable {tomb : V → Prop} {current : Option (Numbered V)} {seq cursor : ℕ} {all mine : Set V}
  {c d : Cell V} {m : Numbered V}

/-- A copy that absorbed a version answers for it, or passed over its tombstone. -/
theorem Absorb.met (h : Absorb tomb c m d) :
    m.1 ≤ d.met ∨ (tomb m.1 ∧ d.version = ⊥) := by
  cases h with
  | same => exact Or.inl le_sup_left
  | keep _ hlt => exact Or.inl (hlt.le.trans le_sup_left)
  | take => exact Or.inl le_sup_left
  | pass _ hbot _ htomb => exact Or.inr ⟨htomb, hbot⟩
  | yield => exact Or.inl (le_sup_right.trans le_sup_right)

/-- What a copy answers for never falls. -/
theorem Absorb.met_le (h : Absorb tomb c m d) : c.met ≤ d.met := by
  cases h with
  | same => exact le_rfl
  | keep => exact le_rfl
  | take _ hlt => exact sup_le_sup_right hlt.le _
  | pass => exact le_rfl
  | yield => exact sup_le_sup_left le_sup_left _

/-- A copy that waits after absorbing a version waited before, with the version it has. -/
theorem Absorb.dirty (h : Absorb tomb c m d) (hd : d.dirty = true) :
    c.dirty = true ∧ d.version = c.version := by
  cases h with
  | same => cases hd
  | keep => exact ⟨hd, rfl⟩
  | take => cases hd
  | pass => exact ⟨hd, rfl⟩
  | yield => exact ⟨hd, rfl⟩

/-- A copy that waits goes on waiting unless what comes down is at least as great. -/
theorem Absorb.waiting (h : Absorb tomb c m d) (hc : c.dirty = true) :
    (d.dirty = true ∧ d.version = c.version) ∨ c.version ≤ m.1 := by
  cases h with
  | same => exact Or.inr le_rfl
  | keep => exact Or.inl ⟨hc, rfl⟩
  | take _ hlt => exact Or.inr hlt.le
  | pass => exact Or.inl ⟨hc, rfl⟩
  | yield => exact Or.inl ⟨hc, rfl⟩

theorem Cell.met_giveUp (c : Cell V) : c.giveUp.met = c.met := by
  simp [Cell.met, Cell.giveUp, sup_comm]

theorem Digest.met_le {ms : List (Numbered V)} (h : Digest tomb c ms d) : c.met ≤ d.met := by
  induction h with
  | nil => exact le_rfl
  | giveUp _ ih => rwa [Cell.met_giveUp] at ih
  | absorb ha _ ih => exact ha.met_le.trans ih

/-- Digesting at most one version is giving up, absorbing it, and giving up again. -/
theorem Digest.split {ms : List (Numbered V)} (h : Digest tomb c ms d) (hlen : ms.length ≤ 1) :
    ∃ e f, Digest tomb c [] e ∧ AbsorbOption tomb e ms.head? f ∧ Digest tomb f [] d := by
  induction h with
  | nil c => exact ⟨c, c, .nil c, .none c, .nil c⟩
  | giveUp _ ih =>
    obtain ⟨e, f, hbefore, habsorb, hafter⟩ := ih hlen
    exact ⟨e, f, .giveUp hbefore, habsorb, hafter⟩
  | @absorb c d e m ms ha hrest =>
    cases ms with
    | nil => exact ⟨c, e, .nil c, .some ha, hrest⟩
    | cons => simp at hlen

theorem Knows.write {bound : ℕ} {v : V}
    (hv : c.version < v) (h : Knows tomb current c bound) :
    Knows tomb current { c with version := v, dirty := true } bound :=
  fun cur hcurrent hbound => (h cur hcurrent hbound).imp
    (fun hle => hle.trans (sup_le_sup_right hv.le _)) fun htomb => ⟨htomb.1, Or.inr rfl⟩

theorem Knows.giveUp {bound : ℕ}
    (h : Knows tomb current c bound) : Knows tomb current c.giveUp bound := by
  intro cur hcurrent hbound
  rw [Cell.met_giveUp]
  exact (h cur hcurrent hbound).imp_right fun htomb => ⟨htomb.1, Or.inl rfl⟩

/-- A version that is at least the copy's own replaces it. -/
theorem Absorb.settle {u : V} (q : ℕ) (h : c.version ≤ u) :
    Absorb tomb c (u, q) { c with version := u, dirty := false, base := q } := by
  rcases h.eq_or_lt with rfl | hlt
  · exact .same c q
  · exact .take c q hlt

/-- A copy made clean by a version on its way down holds exactly that version. -/
private theorem CellInv.settle (hcur : ∀ cur ∈ current, cur.2 ≤ seq)
    (h : CellInv tomb current seq all mine cursor c) (hm : Valid current all cursor m)
    (hle : c.version ≤ m.1) :
    CellInv tomb current seq all mine cursor
      { c with version := m.1, dirty := false, base := m.2 } := by
  obtain ⟨hmem, cur, hcurrent, hmle, hnum⟩ := hm
  have hcurle := hcur cur hcurrent
  have unique : ∀ cur' ∈ current, cur' = cur := fun cur' h' => by
    cases hcurrent
    cases h'
    rfl
  refine ⟨?_, ?_, ?_, ?_, Or.inr hmem, h.marked, ?_⟩
  · rcases hnum with rfl | ⟨hlt, -⟩
    · exact hcurle
    · exact (hlt.trans_le hcurle).le
  · intro cur' h' hbase
    rw [unique cur' h'] at hbase ⊢
    rcases hnum with rfl | ⟨hlt, -⟩
    · exact le_rfl
    · exact absurd hbase hlt.ne'
  · intro cur' h' hbound
    rw [unique cur' h'] at hbound ⊢
    rcases hnum with rfl | ⟨-, hlt⟩
    · exact Or.inl le_sup_left
    · omega
  · exact fun _ => Or.inr ⟨cur, hcurrent, hmle⟩
  · intro v hv
    rcases h.kept v hv with hdone | ⟨-, hv⟩ | hgone
    · exact Or.inl hdone
    · exact Or.inl ⟨cur, hcurrent, (hv.trans hle).trans hmle⟩
    · exact Or.inr (Or.inr hgone)

/-- The greater of a mark and a written version was written. -/
private theorem mem_or_of_sup {mark u : V} (hmark : mark = ⊥ ∨ mark ∈ all) (hu : u ∈ all) :
    mark ⊔ u ∈ all := by
  rcases hmark with rfl | hmark
  · rwa [bot_sup_eq]
  · rcases le_total mark u with hle | hle
    · rwa [sup_eq_right.mpr hle]
    · rwa [sup_eq_left.mpr hle]

theorem CellInv.absorb (hcur : ∀ cur ∈ current, cur.2 ≤ seq)
    (h : CellInv tomb current seq all mine cursor c) (hm : Valid current all cursor m)
    (ha : Absorb tomb c m d) : CellInv tomb current seq all mine cursor d := by
  cases ha with
  | same q => exact h.settle hcur hm le_rfl
  | take q hlt => exact h.settle hcur hm hlt.le
  | pass => exact h
  | @keep u q hlt =>
    obtain ⟨-, cur, hcurrent, hmle, hnum⟩ := hm
    have hcurle := hcur cur hcurrent
    refine ⟨?_, ?_, h.knows, h.clean, h.held, h.marked, h.kept⟩
    · rcases hnum with heq | ⟨hlt', -⟩
      · exact (congrArg Prod.snd heq).trans_le hcurle
      · exact (hlt'.trans_le hcurle).le
    · intro cur' h' hbase
      cases hcurrent
      cases h'
      rcases hnum with rfl | ⟨hlt', -⟩
      · exact hlt.le
      · exact absurd hbase hlt'.ne'
  | yield u q =>
    refine ⟨h.base_le, h.based, ?_, h.clean, h.held, ?_, ?_⟩
    · intro cur hcurrent hbound
      exact (h.knows cur hcurrent hbound).imp_left fun hle =>
        hle.trans (sup_le_sup_left le_sup_left _)
    · exact Or.inr (mem_or_of_sup h.marked hm.1)
    · intro v hv
      exact (h.kept v hv).imp_right (Or.imp_right fun hle => hle.trans le_sup_left)

/-- Giving the copy up loses only what the mark then stands for. -/
theorem CellInv.giveUp (hcur : ∀ cur ∈ current, 0 < cur.2)
    (h : CellInv tomb current seq all mine cursor c) :
    CellInv tomb current seq all mine cursor c.giveUp where
  base_le := Nat.zero_le _
  based := fun cur hcurrent hbase => absurd hbase (hcur cur hcurrent).ne'
  knows := h.knows.giveUp
  clean := fun _ => Or.inl rfl
  held := Or.inl ⟨rfl, rfl⟩
  marked := by
    rcases h.held with ⟨hbot, -⟩ | hmem
    · have hmark : c.giveUp.mark = c.mark := by simp [Cell.giveUp, hbot]
      rw [hmark]
      exact h.marked
    · exact Or.inr (mem_or_of_sup h.marked hmem)
  kept := by
    intro v hv
    rcases h.kept v hv with hdone | ⟨-, hle⟩ | hle
    · exact Or.inl hdone
    · exact Or.inr (Or.inr (hle.trans le_sup_right))
    · exact Or.inr (Or.inr (hle.trans le_sup_left))

theorem CellInv.absorbOption {inbound : Option (Numbered V)} (hcur : ∀ cur ∈ current, cur.2 ≤ seq)
    (h : CellInv tomb current seq all mine cursor c)
    (hin : ∀ m ∈ inbound, Valid current all cursor m) (ha : AbsorbOption tomb c inbound d) :
    CellInv tomb current seq all mine cursor d := by
  cases ha with
  | none => exact h
  | some ha => exact h.absorb hcur (hin _ rfl) ha

/-- Clearing the flag after the server took exactly what the copy still holds. -/
theorem CellInv.mark (hcur : ∀ cur ∈ current, cur.2 ≤ seq)
    (h : CellInv tomb current seq all mine cursor c) {q : ℕ}
    (hm : Valid current all cursor (c.version, q)) :
    CellInv tomb current seq all mine cursor { c with dirty := false, base := q } :=
  h.settle hcur hm le_rfl

theorem CellInv.write (h : CellInv tomb current seq all mine cursor c) {v : V}
    (hv : c.version < v) :
    CellInv tomb current seq (insert v all) (insert v mine) cursor
      { c with version := v, dirty := true } where
  base_le := h.base_le
  based := fun cur hcurrent hbase => (h.based cur hcurrent hbase).trans hv.le
  knows := h.knows.write hv
  clean := fun hdirty => absurd hdirty (by simp)
  held := Or.inr (Set.mem_insert _ _)
  marked := h.marked.imp_right fun hmem => Set.mem_insert_of_mem _ hmem
  kept := by
    rintro w (rfl | hw)
    · exact Or.inr (Or.inl ⟨rfl, le_rfl⟩)
    · exact (h.kept w hw).imp_right (Or.imp_left fun hle => ⟨rfl, hle.2.trans hv.le⟩)

end absorb

variable [DecidableEq ι] {tomb : V → Prop}

omit [OrderBot V] in
/-- The server's answer moves the server forward and gives the peer versions it may use. -/
theorem Serve.later {current current' push taken inbound : Option (Numbered V)}
    {seq seq' cursor : ℕ} {all : Set V}
    (h : Serve (current, seq) push (current', seq') taken inbound)
    (hcur : ∀ cur ∈ current, 0 < cur.2 ∧ cur.2 ≤ seq ∧ cur.1 ∈ all) (hcursor : cursor ≤ seq)
    (hpush : ∀ m ∈ push, m.1 ∈ all ∧ m.2 ≤ seq ∧ ∀ cur ∈ current, cur.2 = m.2 → cur.1 ≤ m.1) :
    Later current seq current' seq' ∧
      (∀ cur ∈ current', 0 < cur.2 ∧ cur.2 ≤ seq' ∧ cur.1 ∈ all) ∧
      (∀ m ∈ taken, Valid current' all cursor m ∧ cursor < m.2) ∧
      (∀ m ∈ inbound, Valid current' all cursor m) := by
  cases h with
  | other hle =>
    refine ⟨.same hle, fun cur h => ?_, by rintro m ⟨⟩, by rintro m ⟨⟩⟩
    exact ⟨(hcur cur h).1, (hcur cur h).2.1.trans hle, (hcur cur h).2.2⟩
  | @accept _ _ _ q v base hbase hlt hle =>
    obtain ⟨hmem, -, hdominates⟩ := hpush _ rfl
    refine ⟨.raise (fun cur h => hdominates cur h (hbase cur h)) hlt hle, ?_, ?_, by rintro m ⟨⟩⟩
    · rintro cur ⟨⟩
      exact ⟨by omega, hle, hmem⟩
    · rintro m ⟨⟩
      exact ⟨⟨hmem, _, rfl, le_rfl, Or.inl rfl⟩, by simp only; omega⟩
  | @conflict m _ _ v base hle =>
    have hm := hcur m rfl
    refine ⟨.same hle, ?_, by rintro m ⟨⟩, ?_⟩
    · rintro cur ⟨⟩
      exact ⟨hm.1, hm.2.1.trans hle, hm.2.2⟩
    · rintro n ⟨⟩
      exact ⟨hm.2.2, _, rfl, le_rfl, Or.inl rfl⟩

/-- A change of the copy that keeps what it knows disturbs nothing that is on its way. -/
theorem PhaseInv.cell {current : Option (Numbered V)} {seq cursor : ℕ} {all : Set V}
    {c d : Cell V} {phase : Phase V} (h : PhaseInv tomb current seq all cursor c phase)
    (hknows : ∀ bound, Knows tomb current c bound → Knows tomb current d bound) :
    PhaseInv tomb current seq all cursor d phase := by
  cases phase with
  | applied bound => exact ⟨h.1, hknows bound h.2⟩
  | _ => exact h

theorem Inv.setPeer {s : State ι V} (h : Inv tomb s) (i : ι) {p : Peer V}
    (hp : PeerInv tomb s.current s.seq s.all (s.written i) p) : Inv tomb (s.setPeer i p) where
  positive := h.positive
  current_mem := h.current_mem
  peer := by
    intro j
    change PeerInv tomb s.current s.seq s.all (s.written j) (Function.update s.peers i p j)
    by_cases hj : j = i
    · subst hj
      rwa [Function.update_self]
    · rw [Function.update_of_ne hj]
      exact h.peer j

omit [LinearOrder V] [OrderBot V] in
theorem State.all_write (s : State ι V) (i : ι) (v : V) :
    (⋃ j, Function.update s.written i (insert v (s.written i)) j) = insert v s.all := by
  ext w
  simp only [State.all, Set.mem_iUnion, Set.mem_insert_iff]
  constructor
  · rintro ⟨j, hj⟩
    by_cases hji : j = i
    · subst hji
      simp only [Function.update_self, Set.mem_insert_iff] at hj
      exact hj.imp_right fun hj => ⟨j, hj⟩
    · rw [Function.update_of_ne hji] at hj
      exact Or.inr ⟨j, hj⟩
  · rintro (rfl | ⟨j, hj⟩)
    · exact ⟨i, by simp⟩
    · by_cases hji : j = i
      · subst hji
        exact ⟨j, by simp [hj]⟩
      · exact ⟨j, by rwa [Function.update_of_ne hji]⟩

theorem Inv.write {s : State ι V} (h : Inv tomb s) (i : ι) {v : V}
    (hv : (s.peers i).cell.version < v) :
    Inv tomb { s with
      peers := Function.update s.peers i
        { s.peers i with cell := { (s.peers i).cell with version := v, dirty := true } }
      written := Function.update s.written i (insert v (s.written i)) } := by
  have hcur : ∀ cur ∈ s.current, cur.2 ≤ s.seq := fun cur hc => (h.current_mem cur hc).2.1
  have hsub : s.all ⊆ insert v s.all := Set.subset_insert _ _
  refine ⟨?_, ?_, ?_⟩
  · intro w hw
    simp only [State.all] at hw
    rw [State.all_write] at hw
    rcases hw with rfl | hw
    · exact bot_le.trans_lt hv
    · exact h.positive w hw
  · intro cur hc
    obtain ⟨hpos, hle, hmem⟩ := h.current_mem cur hc
    refine ⟨hpos, hle, ?_⟩
    simp only [State.all]
    rw [State.all_write]
    exact hsub hmem
  · intro j
    simp only [State.all]
    rw [State.all_write]
    by_cases hj : j = i
    · subst hj
      have hp := h.peer j
      simp only [Function.update_self]
      exact ⟨hp.cursor_le, hp.cell.write hv,
        (hp.phase.later (.same le_rfl) hcur hsub hp.cursor_le).cell fun _ hk => hk.write hv⟩
    · simp only [Function.update_of_ne hj]
      exact (h.peer j).later (.same le_rfl) hcur hsub

theorem Inv.serve {s : State ι V} (h : Inv tomb s) (i : ι)
    {push taken inbound current' : Option (Numbered V)} {seq' : ℕ}
    (hphase : (s.peers i).phase = .offered push)
    (hserve : Serve (s.current, s.seq) push (current', seq') taken inbound) :
    Inv tomb ({ s with current := current', seq := seq' }.setPeer i
      { s.peers i with phase := .answered taken inbound }) := by
  have hcur : ∀ cur ∈ s.current, cur.2 ≤ s.seq := fun cur hc => (h.current_mem cur hc).2.1
  have hp := h.peer i
  have hpush := hp.phase
  rw [hphase] at hpush
  obtain ⟨hlater, hcurrent, htaken, hinbound⟩ := hserve.later h.current_mem hp.cursor_le hpush
  have hmoved : Inv tomb { s with current := current', seq := seq' } :=
    ⟨h.positive, hcurrent, fun j => (h.peer j).later hlater hcur subset_rfl⟩
  exact hmoved.setPeer i ⟨(hmoved.peer i).cursor_le, (hmoved.peer i).cell, htaken, hinbound⟩

/-- One step keeps the invariant. -/
theorem Inv.step {s t : State ι V} (h : Inv tomb s) (hstep : Step tomb s t) : Inv tomb t := by
  have hcur : ∀ cur ∈ s.current, cur.2 ≤ s.seq := fun cur hc => (h.current_mem cur hc).2.1
  cases hstep with
  | write i v hv => exact h.write i hv
  | offer i push hpush =>
    have hp := h.peer i
    refine h.setPeer i ⟨hp.cursor_le, hp.cell, ?_⟩
    intro m hm
    obtain ⟨hdirty, rfl⟩ := hpush m hm
    refine ⟨?_, hp.cell.base_le, hp.cell.based⟩
    rcases hp.cell.held with ⟨-, hclean⟩ | hmem
    · exact absurd hdirty (by simp [hclean])
    · exact hmem
  | @serve i push taken inbound current' seq' hphase hserve => exact h.serve i hphase hserve
  | @mark i taken inbound c hphase hc =>
    have hp := h.peer i
    have hanswer := hp.phase
    rw [hphase] at hanswer
    refine h.setPeer i ⟨hp.cursor_le, ?_, hanswer.2⟩
    rcases hc with rfl | ⟨q, rfl, rfl⟩
    · exact hp.cell
    · exact hp.cell.mark hcur (hanswer.1 _ rfl).1
  | @merge i inbound c hphase hc =>
    have hp := h.peer i
    have hin := hp.phase
    rw [hphase] at hin
    exact h.setPeer i ⟨hp.cursor_le, hp.cell.absorbOption hcur hin hc, trivial⟩
  | fetch i inbound bound hbound hpage =>
    have hp := h.peer i
    refine h.setPeer i ⟨hp.cursor_le, hp.cell, hbound, ?_, ?_⟩
    · intro m hm
      obtain ⟨hcurrent, -⟩ := hpage.1 m hm
      exact ⟨(h.current_mem m hcurrent).2.2, m, hcurrent, le_rfl, Or.inl rfl⟩
    · intro cur hcurrent hle
      by_cases hseen : cur.2 ≤ (s.peers i).cursor
      · exact Or.inl hseen
      · exact Or.inr (hpage.2 cur hcurrent (by omega) hle)
  | @apply i inbound bound c hphase hc =>
    have hp := h.peer i
    have hpage := hp.phase
    rw [hphase] at hpage
    obtain ⟨hbound, hin, hcover⟩ := hpage
    have hcell := hp.cell.absorbOption hcur hin hc
    refine h.setPeer i ⟨hp.cursor_le, hcell, hbound, ?_⟩
    intro cur hcurrent hle
    rcases hcover cur hcurrent hle with hseen | rfl
    · exact hcell.knows cur hcurrent hseen
    · cases hc with
      | some ha => exact ha.met.imp_right fun htomb => ⟨htomb.1, Or.inl htomb.2⟩
  | @advance i bound hphase =>
    have hp := h.peer i
    have happlied := hp.phase
    rw [hphase] at happlied
    exact h.setPeer i ⟨happlied.1, ⟨hp.cell.base_le, hp.cell.based, happlied.2, hp.cell.clean,
      hp.cell.held, hp.cell.marked, hp.cell.kept⟩, trivial⟩
  | giveUp i =>
    have hp := h.peer i
    exact h.setPeer i ⟨hp.cursor_le, hp.cell.giveUp fun cur hc => (h.current_mem cur hc).1,
      hp.phase.cell fun _ hk => hk.giveUp⟩
  | cut i => exact h.setPeer i ⟨(h.peer i).cursor_le, (h.peer i).cell, trivial⟩
  | rewind i =>
    have hp := h.peer i
    refine h.setPeer i ⟨Nat.zero_le _, ⟨hp.cell.base_le, hp.cell.based, ?_, hp.cell.clean,
      hp.cell.held, hp.cell.marked, hp.cell.kept⟩, trivial⟩
    intro cur hcurrent hle
    exact absurd hle (h.current_mem cur hcurrent).1.not_ge

omit [DecidableEq ι] in
theorem inv_initial : Inv tomb (initial : State ι V) where
  positive := by
    intro v hv
    obtain ⟨i, hi⟩ := Set.mem_iUnion.mp hv
    cases hi
  current_mem := by rintro cur ⟨⟩
  peer := fun _ =>
    { cursor_le := le_rfl
      cell :=
        { base_le := le_rfl
          based := by rintro cur ⟨⟩
          knows := by rintro cur ⟨⟩
          clean := fun _ => Or.inl rfl
          held := Or.inl ⟨rfl, rfl⟩
          marked := Or.inl rfl
          kept := by rintro v ⟨⟩ }
      phase := trivial }

/-- The invariant holds along every run from the start. -/
theorem inv_of_run {s : State ι V} (hrun : Run.Steps (Step tomb) initial s) : Inv tomb s :=
  Run.invariant (fun _ _ h hstep => h.step hstep) hrun inv_initial

omit [DecidableEq ι] in
/-- Once nothing waits to go up, every cursor has passed the current number and
nothing was given up, all peers hold the greatest version ever written, or nothing if
that is a tombstone. -/
theorem Inv.converged {s : State ι V} (h : Inv tomb s)
    (hclean : ∀ i, (s.peers i).cell.dirty = false)
    (hseen : ∀ i, ∀ cur ∈ s.current, cur.2 ≤ (s.peers i).cursor)
    (hmark : ∀ i, (s.peers i).cell.mark = ⊥) :
    (s.all = ∅ ∧ s.current = none ∧ ∀ i, (s.peers i).cell.version = ⊥) ∨
      ∃ cur, s.current = some cur ∧ IsGreatest s.all cur.1 ∧
        ∀ i, (s.peers i).cell.version = cur.1 ∨
          ((s.peers i).cell.version = ⊥ ∧ tomb cur.1) := by
  have hkept : ∀ v ∈ s.all, ∃ cur ∈ s.current, v ≤ cur.1 := by
    intro v hv
    obtain ⟨i, hi⟩ := Set.mem_iUnion.mp hv
    rcases (h.peer i).cell.kept v hi with hdone | ⟨hdirty, -⟩ | hgone
    · exact hdone
    · exact absurd hdirty (by simp [hclean i])
    · rw [hmark i] at hgone
      exact absurd hgone (h.positive v hv).not_ge
  cases hcurrent : s.current with
  | none =>
    left
    refine ⟨Set.eq_empty_of_forall_notMem fun v hv => ?_, rfl, fun i => ?_⟩
    · obtain ⟨cur, hc, -⟩ := hkept v hv
      simp [hcurrent] at hc
    · rcases (h.peer i).cell.clean (hclean i) with hbot | ⟨cur, hc, -⟩
      · exact hbot
      · simp [hcurrent] at hc
  | some cur =>
    right
    refine ⟨cur, rfl, ⟨(h.current_mem cur hcurrent).2.2, fun v hv => ?_⟩, fun i => ?_⟩
    · obtain ⟨cur', hc, hle⟩ := hkept v hv
      rw [hcurrent] at hc
      cases hc
      exact hle
    · have hp := (h.peer i).cell
      have hmet : (s.peers i).cell.met = (s.peers i).cell.version := by
        simp [Cell.met, hmark i]
      rcases hp.knows cur hcurrent (hseen i cur hcurrent) with hle | ⟨htomb, hbot | hdirty⟩
      · rw [hmet] at hle
        rcases hp.clean (hclean i) with hbot | ⟨cur', hc, hge⟩
        · exact Or.inl (le_antisymm (hbot ▸ bot_le) hle)
        · rw [hcurrent] at hc
          cases hc
          exact Or.inl (le_antisymm hge hle)
      · exact Or.inr ⟨hbot, htomb⟩
      · exact absurd hdirty (by simp [hclean i])

omit [LinearOrder V] [OrderBot V] in
theorem State.setPeer_setPeer (s : State ι V) (i : ι) (p q : Peer V) :
    (s.setPeer i p).setPeer i q = s.setPeer i q := by
  simp [State.setPeer]

omit [LinearOrder V] [OrderBot V] in
@[simp] theorem State.peers_setPeer_self (s : State ι V) (i : ι) (p : Peer V) :
    (s.setPeer i p).peers i = p := by
  simp [State.setPeer]

omit [LinearOrder V] [OrderBot V] in
theorem State.setPeer_self (s : State ι V) (i : ι) : s.setPeer i (s.peers i) = s := by
  simp [State.setPeer]

theorem Step.cut_setPeer (s : State ι V) (i : ι) (p : Peer V) :
    Step tomb (s.setPeer i p) (s.setPeer i { p with phase := .idle }) := by
  have hcut : Step tomb (s.setPeer i p) _ := Step.cut (s.setPeer i p) i
  rwa [State.setPeer_setPeer, State.peers_setPeer_self] at hcut

/-- Digesting nothing is a run of its own, whatever the peer is doing. -/
theorem Digest.steps_nil {c d : Cell V} (h : Digest tomb c [] d) (s : State ι V) (i : ι)
    (hc : (s.peers i).cell = c) :
    Run.Steps (Step tomb) s (s.setPeer i { s.peers i with cell := d }) := by
  generalize hnil : ([] : List (Numbered V)) = ms at h
  induction h generalizing s with
  | nil c =>
    subst hc
    rw [State.setPeer_self]
  | @giveUp c d ms _ ih =>
    have hstep : Step tomb s _ := Step.giveUp s i
    rw [hc] at hstep
    have hrest := ih (s.setPeer i { s.peers i with cell := c.giveUp }) (by simp) hnil
    rw [State.setPeer_setPeer, State.peers_setPeer_self] at hrest
    exact .head hstep hrest
  | absorb => cases hnil

/-- A page that is digested is applied, with what is given up before and after. -/
theorem Digest.steps_apply {d : Cell V} {ms : List (Numbered V)} {s : State ι V} {i : ι}
    {bound : ℕ} (hphase : (s.peers i).phase = .paged ms.head? bound)
    (h : Digest tomb (s.peers i).cell ms d) (hlen : ms.length ≤ 1) :
    Run.Steps (Step tomb) s
      (s.setPeer i { s.peers i with cell := d, phase := .applied bound }) := by
  obtain ⟨e, f, hbefore, habsorb, hafter⟩ := h.split hlen
  have h₁ := hbefore.steps_nil s i rfl
  have h₂ : Step tomb _ _ := Step.apply (s.setPeer i { s.peers i with cell := e }) i f
    (by simpa using hphase) (by simpa using habsorb)
  rw [State.setPeer_setPeer, State.peers_setPeer_self] at h₂
  have h₃ := hafter.steps_nil
    (s.setPeer i { s.peers i with cell := f, phase := .applied bound }) i (by simp)
  rw [State.setPeer_setPeer, State.peers_setPeer_self] at h₃
  exact (h₁.tail h₂).trans h₃

/-- The same for what the server held instead of a push. -/
theorem Digest.steps_merge {d : Cell V} {ms : List (Numbered V)} {s : State ι V} {i : ι}
    (hphase : (s.peers i).phase = .merging ms.head?)
    (h : Digest tomb (s.peers i).cell ms d) (hlen : ms.length ≤ 1) :
    Run.Steps (Step tomb) s (s.setPeer i { s.peers i with cell := d, phase := .idle }) := by
  obtain ⟨e, f, hbefore, habsorb, hafter⟩ := h.split hlen
  have h₁ := hbefore.steps_nil s i rfl
  have h₂ : Step tomb _ _ := Step.merge (s.setPeer i { s.peers i with cell := e }) i f
    (by simpa using hphase) (by simpa using habsorb)
  rw [State.setPeer_setPeer, State.peers_setPeer_self] at h₂
  have h₃ := hafter.steps_nil (s.setPeer i { s.peers i with cell := f, phase := .idle }) i (by simp)
  rw [State.setPeer_setPeer, State.peers_setPeer_self] at h₃
  exact (h₁.tail h₂).trans h₃

section rising

/-- Nothing goes back: each peer answers for at least what it answered for, and so does the server. -/
structure Rises (s t : State ι V) : Prop where
  peer : ∀ i, (s.peers i).cell.met ≤ (t.peers i).cell.met
  current : ∀ cur ∈ s.current, ∃ cur' ∈ t.current, cur.1 ≤ cur'.1 ∧ cur.2 ≤ cur'.2

omit [OrderBot V] [DecidableEq ι] in
theorem Rises.refl (s : State ι V) : Rises s s := ⟨fun _ => le_rfl, fun cur h => ⟨cur, h, le_rfl, le_rfl⟩⟩

omit [OrderBot V] [DecidableEq ι] in
theorem Rises.trans {s t u : State ι V} (h : Rises s t) (h' : Rises t u) : Rises s u where
  peer i := (h.peer i).trans (h'.peer i)
  current := by
    intro cur hcur
    obtain ⟨mid, hmid, hle, hnum⟩ := h.current cur hcur
    obtain ⟨last, hlast, hle', hnum'⟩ := h'.current mid hmid
    exact ⟨last, hlast, hle.trans hle', hnum.trans hnum'⟩

omit [OrderBot V] in
theorem rises_setPeer (s : State ι V) (i : ι) {p : Peer V} (h : (s.peers i).cell.met ≤ p.cell.met) :
    Rises s (s.setPeer i p) := by
  refine ⟨fun j => ?_, (Rises.refl s).current⟩
  show (s.peers j).cell.met ≤ (Function.update s.peers i p j).cell.met
  by_cases hj : j = i
  · subst hj
    rwa [Function.update_self]
  · rw [Function.update_of_ne hj]

theorem AbsorbOption.met_le {c d : Cell V} {inbound : Option (Numbered V)} (h : AbsorbOption tomb c inbound d) :
    c.met ≤ d.met := by
  cases h with
  | none => exact le_rfl
  | some ha => exact ha.met_le

/-- One step takes nothing back. -/
theorem Inv.rises {s t : State ι V} (h : Inv tomb s) (hstep : Step tomb s t) : Rises s t := by
  cases hstep with
  | write i v hv =>
    refine ⟨fun j => ?_, (Rises.refl s).current⟩
    by_cases hj : j = i
    · subst hj
      simp only [Function.update_self]
      exact sup_le_sup_right hv.le _
    · simp only [Function.update_of_ne hj]
      exact le_rfl
  | offer i push hpush => exact rises_setPeer s i le_rfl
  | @serve i push taken inbound current' seq' hphase hserve =>
    have hp := h.peer i
    have hpush := hp.phase
    rw [hphase] at hpush
    obtain ⟨hlater, -⟩ := hserve.later h.current_mem hp.cursor_le hpush
    have hmoved : Rises s { s with current := current', seq := seq' } := by
      refine ⟨fun _ => le_rfl, fun cur hcur => ?_⟩
      cases hlater with
      | same => exact ⟨cur, hcur, le_rfl, le_rfl⟩
      | raise hle hlt =>
        exact ⟨_, rfl, hle cur hcur, ((h.current_mem cur hcur).2.1.trans hlt.le)⟩
    exact hmoved.trans (rises_setPeer _ i le_rfl)
  | @mark i taken inbound c hphase hc =>
    refine rises_setPeer s i ?_
    rcases hc with rfl | ⟨q, -, rfl⟩
    · exact le_rfl
    · exact le_rfl
  | merge i c hphase hc => exact rises_setPeer s i hc.met_le
  | fetch i inbound bound hbound hpage => exact rises_setPeer s i le_rfl
  | apply i c hphase hc => exact rises_setPeer s i hc.met_le
  | advance i hphase => exact rises_setPeer s i le_rfl
  | giveUp i => exact rises_setPeer s i (s.peers i).cell.met_giveUp.ge
  | cut i => exact rises_setPeer s i le_rfl
  | rewind i => exact rises_setPeer s i le_rfl

/-- Nor does a run. -/
theorem Inv.rises_run {s t : State ι V} (h : Inv tomb s) (hrun : Run.Steps (Step tomb) s t) : Rises s t := by
  have hkeep : ∀ u v : State ι V, Inv tomb u ∧ Rises s u → Step tomb u v → Inv tomb v ∧ Rises s v :=
    fun u v hu hstep => ⟨hu.1.step hstep, hu.2.trans (hu.1.rises hstep)⟩
  exact (Run.invariant hkeep hrun ⟨h, .refl s⟩).2

end rising

end Register

import Mathlib.Data.List.Chain
import UwuSsh.Chromium.LogDamage

/-!
Which batches of a damaged log were written. What passes its checksum is taken to be a record that was
written, here or elsewhere; then every batch that is applied is one that was written, whole, except where
pieces are put together that do not come from one block and the next. Where bytes are only changed, that is:
where a first and a last piece are joined over a block of which no record was read.
-/
namespace UwuSsh.Chromium

/-- A record that goes on in the next block is followed by one that began in the last. -/
def GoesOn (a b : Fragment) : Prop := a.kind = 2 ∨ a.kind = 3 → b.kind = 3 ∨ b.kind = 4

section Pieces

variable {first : Bool} {rest : List UInt8} {parts : List Fragment}

theorem kind_begins (first last : Bool) :
    if first then fragmentKind first last = 1 ∨ fragmentKind first last = 2
    else fragmentKind first last = 3 ∨ fragmentKind first last = 4 := by
  cases first <;> cases last <;> simp [fragmentKind]

theorem Pieces.begins (h : Pieces first rest parts) : ∃ head tail, parts = head :: tail ∧
    (if first then head.kind = 1 ∨ head.kind = 2 else head.kind = 3 ∨ head.kind = 4) ∧
    ∀ fragment ∈ tail, fragment.kind = 3 ∨ fragment.kind = 4 := by
  induction h with
  | last first rest => exact ⟨_, [], rfl, kind_begins first true, by simp⟩
  | more first piece h ih =>
    obtain ⟨head, tail, rfl, hhead, htail⟩ := ih
    refine ⟨_, _, rfl, kind_begins first false, fun fragment hfragment => ?_⟩
    rcases List.mem_cons.mp hfragment with rfl | hlater
    · simpa using hhead
    · exact htail fragment hlater

theorem Pieces.ends (h : Pieces first rest parts) : ∃ init last, parts = init ++ [last] ∧
    (last.kind = 1 ∨ last.kind = 4) ∧ ∀ fragment ∈ init, fragment.kind = 2 ∨ fragment.kind = 3 := by
  induction h with
  | last first rest =>
    refine ⟨[], _, rfl, ?_, by simp⟩
    cases first <;> simp [fragmentKind]
  | more first piece h ih =>
    obtain ⟨init, last, rfl, hlast, hinit⟩ := ih
    refine ⟨_ :: init, last, rfl, hlast, fun fragment hfragment => ?_⟩
    rcases List.mem_cons.mp hfragment with rfl | hlater
    · cases first <;> simp [fragmentKind]
    · exact hinit fragment hlater

theorem Pieces.chain (h : Pieces first rest parts) : parts.IsChain GoesOn := by
  induction h with
  | last first rest => exact .singleton _
  | more first piece h ih =>
    obtain ⟨head, tail, rfl, hhead, -⟩ := h.begins
    exact .cons_cons (fun _ => by simpa using hhead) ih

theorem Pieces.payload (h : Pieces first rest parts) : parts.flatMap Fragment.payload = rest := by
  induction h with
  | last first rest => simp
  | more first piece h ih => rw [List.flatMap_cons, ih]

/-- Records that make up whole batches. -/
theorem chain_flatten {cut : List (List Fragment)} (h : ∀ parts ∈ cut, ∃ batch, Pieces true batch parts) :
    cut.flatten.IsChain GoesOn := by
  induction cut with
  | nil => exact .nil
  | cons parts cut ih =>
    obtain ⟨batch, hparts⟩ := h parts List.mem_cons_self
    rw [List.flatten_cons, List.isChain_append]
    refine ⟨hparts.chain, ih fun other hother => h other (List.mem_cons_of_mem _ hother), ?_⟩
    obtain ⟨init, last, rfl, hlast, -⟩ := hparts.ends
    intro x hx y _ hgoes
    obtain rfl : last = x := by simpa using hx
    rcases hlast with h1 | h4
    · simp [h1] at hgoes
    · simp [h4] at hgoes

/-- Up to its end a stretch that begins where a batch does and ends where one does is that batch. -/
theorem eq_of_ends {init init' : List Fragment} {last last' : Fragment} {after after' : List Fragment}
    (hinit : ∀ fragment ∈ init, fragment.kind = 2 ∨ fragment.kind = 3)
    (hinit' : ∀ fragment ∈ init', fragment.kind = 2 ∨ fragment.kind = 3)
    (hlast : last.kind = 1 ∨ last.kind = 4) (hlast' : last'.kind = 1 ∨ last'.kind = 4)
    (heq : init ++ last :: after = init' ++ last' :: after') : init ++ [last] = init' ++ [last'] := by
  have hdiffer : ∀ fragment : Fragment, fragment.kind = 1 ∨ fragment.kind = 4 →
      ¬ (fragment.kind = 2 ∨ fragment.kind = 3) := by
    rintro fragment (h | h) <;> simp [h]
  induction init generalizing init' with
  | nil =>
    cases init' with
    | nil =>
      rw [List.nil_append, List.nil_append, List.cons.injEq] at heq
      rw [heq.1]
    | cons fragment init' =>
      rw [List.nil_append, List.cons_append, List.cons.injEq] at heq
      have hin := hinit' fragment List.mem_cons_self
      rw [← heq.1] at hin
      exact absurd hin (hdiffer last hlast)
  | cons fragment init ih =>
    cases init' with
    | nil =>
      rw [List.nil_append, List.cons_append, List.cons.injEq] at heq
      have hin := hinit fragment List.mem_cons_self
      rw [heq.1] at hin
      exact absurd hin (hdiffer last' hlast')
    | cons fragment' init' =>
      rw [List.cons_append, List.cons_append, List.cons.injEq] at heq
      obtain ⟨rfl, heq⟩ := heq
      rw [List.cons_append, List.cons_append,
        ih (fun other hother => hinit other (List.mem_cons_of_mem _ hother))
          (fun other hother => hinit' other (List.mem_cons_of_mem _ hother)) heq]

/-- A stretch of the records that begins and ends as a batch does is a batch. -/
theorem mem_of_infix {cut : List (List Fragment)} (h : ∀ parts ∈ cut, ∃ batch, Pieces true batch parts)
    {before init after : List Fragment} {last : Fragment}
    (heq : cut.flatten = before ++ (init ++ [last]) ++ after)
    (hinit : ∀ fragment ∈ init, fragment.kind = 2 ∨ fragment.kind = 3)
    (hlast : last.kind = 1 ∨ last.kind = 4)
    (hhead : ∀ head ∈ (init ++ [last]).head?, head.kind = 1 ∨ head.kind = 2) : init ++ [last] ∈ cut := by
  induction cut generalizing before with
  | nil =>
    have hlen := congrArg List.length heq
    simp at hlen
  | cons parts cut ih =>
    obtain ⟨batch, hparts⟩ := h parts List.mem_cons_self
    rw [List.flatten_cons, List.append_assoc before] at heq
    rcases List.append_eq_append_iff.mp heq with ⟨more, rfl, hrest⟩ | ⟨more, hsplit, hrest⟩
    · rw [← List.append_assoc] at hrest
      exact List.mem_cons_of_mem _ (ih (fun other hother => h other (List.mem_cons_of_mem _ hother)) hrest)
    · cases more with
      | nil =>
        have hcut : cut.flatten = [] ++ (init ++ [last]) ++ after := by simpa using hrest.symm
        exact List.mem_cons_of_mem _ (ih (fun other hother => h other (List.mem_cons_of_mem _ hother)) hcut)
      | cons x more =>
        cases before with
        | nil =>
          obtain ⟨init', last', hends, hlast', hinit'⟩ := hparts.ends
          rw [List.nil_append] at hsplit
          rw [← hsplit, hends] at hrest
          rw [hends, eq_of_ends hinit hinit' hlast hlast'
            (by simpa [List.append_assoc] using hrest)]
          exact List.mem_cons_self
        | cons y before =>
          -- a record inside a batch does not begin one
          obtain ⟨head, tail, hbegins, -, htail⟩ := hparts.begins
          rw [hbegins, List.cons_append, List.cons.injEq] at hsplit
          have hx : x.kind = 3 ∨ x.kind = 4 := htail x (by simp [hsplit.2])
          have hx' : (init ++ [last]).head? = some x := by
            cases init with
            | nil => simpa using congrArg List.head? hrest
            | cons z init => simpa using congrArg List.head? hrest
          rcases hhead x hx' with h1 | h2
          · simp [h1] at hx
          · simp [h2] at hx

end Pieces

section Written

/-- The records of a block as they were written. -/
def written (batches : List (List UInt8)) (block : ℕ) : List Fragment :=
  (lay batches).blocks[block]?.getD []

variable {batches : List (List UInt8)}

theorem readRecords_writeLog (batches : List (List UInt8)) (block : ℕ) :
    readRecords (chunk logBlock block (writeLog batches)) = (written batches block, false) := by
  obtain ⟨hbytes, hok, -⟩ := lay_spec batches
  rw [hbytes, hok.readRecords_chunk]
  rfl

theorem mem_written_iff {place : Place} : place ∈ found (writeLog batches) ↔
    ∃ fragment, place.record = some fragment ∧ (written batches place.block)[place.index]? = some fragment := by
  rw [mem_found_iff, mem_places_iff, readRecords_writeLog]
  simp

theorem shaped_written (batches : List (List UInt8)) (block : ℕ) : Shaped (written batches block) := by
  obtain ⟨-, -, hshaped, -⟩ := lay_spec batches
  rw [written]
  cases hat : (lay batches).blocks[block]? with
  | none => exact shaped_nil
  | some records => exact hshaped.blocks records (List.mem_of_getElem? hat)

/-- A block behind which there are records has some itself. -/
theorem written_ne_nil {block later : ℕ} (hlt : block < later) (hlater : written batches later ≠ []) :
    written batches block ≠ [] := by
  obtain ⟨-, hok, -⟩ := lay_spec batches
  have hwithin : later < (lay batches).blocks.length := by
    by_contra hbeyond
    rw [written, List.getElem?_eq_none (Nat.not_lt.mp hbeyond)] at hlater
    exact hlater rfl
  rw [Layout.blocks, List.length_append, List.length_singleton] at hwithin
  have hfull : block < (lay batches).full.length := by omega
  intro hnil
  have hsize := (hok.full _ (List.getElem_mem hfull)).2
  rw [written, Layout.blocks, List.getElem?_append_left hfull, List.getElem?_eq_getElem hfull,
    Option.getD_some] at hnil
  rw [hnil] at hsize
  exact absurd hsize (by decide)

theorem known_written {block : ℕ} {fragment : Fragment} (h : fragment ∈ written batches block) :
    1 ≤ fragment.kind.toNat ∧ fragment.kind.toNat ≤ 4 := by
  obtain ⟨-, hok, -⟩ := lay_spec batches
  rw [written] at h
  cases hat : (lay batches).blocks[block]? with
  | none => simp [hat] at h
  | some records =>
    rw [hat, Option.getD_some] at h
    exact (hok.fits records (List.mem_of_getElem? hat) fragment h).known

/-- The records of all blocks are batches cut into pieces. -/
theorem cut_spec (batches : List (List UInt8)) : ∃ cut : List (List Fragment),
    (lay batches).blocks.flatten = cut.flatten ∧
      ∀ parts ∈ cut, ∃ batch ∈ batches, Pieces true batch parts := by
  obtain ⟨-, -, -, cut, hcut, hrecords⟩ := lay_spec batches
  refine ⟨cut, by rw [← Layout.records_eq, hrecords], fun parts hparts => ?_⟩
  obtain ⟨index, hindex, rfl⟩ := List.getElem_of_mem hparts
  have hsame := hcut.length_eq
  exact ⟨batches[index], List.getElem_mem _, hcut.get (by omega) hindex⟩

/-- A batch that goes on in the next block goes on with the first record there. -/
theorem goesOn_next {block : ℕ} {init tail : List Fragment} {a b : Fragment}
    (hblock : written batches block = init ++ [a]) (hnext : written batches (block + 1) = b :: tail) :
    GoesOn a b := by
  obtain ⟨cut, hflat, hcut⟩ := cut_spec batches
  have hchain := chain_flatten fun parts hparts => (hcut parts hparts).imp fun _ h => h.2
  rw [← hflat] at hchain
  have hlt : block + 1 < (lay batches).blocks.length := by
    by_contra hbeyond
    rw [written, List.getElem?_eq_none (Nat.not_lt.mp hbeyond)] at hnext
    exact absurd hnext (by simp)
  rw [written, List.getElem?_eq_getElem (by omega), Option.getD_some] at hblock
  rw [written, List.getElem?_eq_getElem hlt, Option.getD_some] at hnext
  rw [← List.take_append_drop block (lay batches).blocks, List.drop_eq_getElem_cons (by omega),
    List.drop_eq_getElem_cons hlt, hblock, hnext, List.flatten_append, List.flatten_cons, List.flatten_cons]
    at hchain
  have hsplit := (List.isChain_append.mp hchain).2.1
  rw [List.append_assoc, List.singleton_append, List.cons_append] at hsplit
  exact (List.isChain_append_cons_cons.mp hsplit).2.1

/-- What is read of a file as it was written. -/
theorem Layout.Ok.found_bytes {layout : Layout} (h : layout.Ok) : found layout.bytes =
    (List.range layout.blocks.length).flatMap fun block =>
      places block (layout.blocks[block]?.getD [], false) := by
  have hcount : (layout.bytes.length + logBlock - 1) / logBlock ≤ layout.blocks.length := by
    have hwithin := h.within
    have hpos : 0 < logBlock := by decide
    rw [h.length_bytes, Layout.blocks, List.length_append, List.length_singleton]
    rw [← Nat.lt_succ_iff, Nat.div_lt_iff_lt_mul hpos, Nat.succ_mul, Nat.succ_mul]
    omega
  rw [found_eq hcount]
  simp only [h.readRecords_chunk]

theorem records_writeLog (batches : List (List UInt8)) :
    (found (writeLog batches)).filterMap Place.record = (lay batches).blocks.flatten := by
  obtain ⟨hbytes, hok, -⟩ := lay_spec batches
  have hone : ∀ block, (places block ((lay batches).blocks[block]?.getD [], false)).filterMap
      Place.record = written batches block := by
    intro block
    rw [places, if_neg Bool.false_ne_true, List.append_nil, List.filterMap_map]
    have hrecord : ∀ place : Fragment × ℕ → Place, (∀ entry, (place entry).record = some entry.1) →
        Place.record ∘ place = fun entry => some entry.1 := fun place hplace => funext hplace
    rw [hrecord _ fun entry => rfl, List.filterMap_eq_map', List.zipIdx_map_fst]
    rfl
  rw [hbytes, hok.found_bytes, List.filterMap_flatMap]
  simp only [hone]
  rw [List.flatMap_def]
  congr 1
  apply List.ext_getElem
  · simp
  · intro index hleft hright
    simp [written, List.getElem?_eq_getElem hright]

end Written

/-- No checksum fits by chance: a record that passes, wherever it is read, is one that was written. -/
def Uncollided (batches : List (List UInt8)) (data : List UInt8) : Prop :=
  ∀ place ∈ found data, place.record ≠ none →
    ∃ other ∈ found (writeLog batches), other.record = place.record

/-- A record that is read is the one that was written at the place it comes from. -/
def OfLog (batches : List (List UInt8)) (origin : Place → Place) (place : Place) : Prop :=
  origin place ∈ found (writeLog batches) ∧ (origin place).record = place.record

/-- A batch that was written, whole: its pieces come from all of its own, in order, with nothing between
them. -/
def Whole (batches : List (List UInt8)) (origin : Place → Place) (group : List Place) : Prop :=
  (∀ place ∈ group, OfLog batches origin place) ∧ group.map origin <:+: found (writeLog batches) ∧
    ∃ batch ∈ batches, Pieces true batch (group.filterMap Place.record)

/-- A first and a last piece are read, and neither another one nor a checksum that does not fit between
them, but of two pieces put together the later one does not come from the block behind the earlier one's. -/
def Skips (origin : Place → Place) (data : List UInt8) : Prop :=
  ∃ before first mid last after, found data = before ++ first :: mid ++ last :: after ∧
    first.role = .first ∧ Fragments.Calm Place.role mid ∧ last.role = .last ∧
    ¬ (first :: Fragments.middles Place.role mid ++ [last]).IsChain fun a b =>
      (origin b).block = (origin a).block + 1

/-- Bytes are changed where they stand, none cut out or put in: a record that passes at a place is the one
that was written there. -/
def InPlace (batches : List (List UInt8)) (data : List UInt8) : Prop :=
  ∀ place ∈ found data, place.record ≠ none → place ∈ found (writeLog batches)

/-- A first and a last piece are read, and neither another one nor a checksum that does not fit between
them, but between them is a block of which nothing is read. -/
def JoinsOverGap (data : List UInt8) : Prop :=
  ∃ before first mid last after, found data = before ++ first :: mid ++ last :: after ∧
    first.role = .first ∧ Fragments.Calm Place.role mid ∧ last.role = .last ∧
    ∃ gap, first.block < gap ∧ gap < last.block ∧ ∀ place ∈ found data, place.block ≠ gap

/-- Where the records that are read come from. -/
theorem Uncollided.origin {batches : List (List UInt8)} {data : List UInt8} (h : Uncollided batches data) :
    ∃ origin, ∀ place ∈ found data, place.record ≠ none → OfLog batches origin place := by
  classical
  refine ⟨fun place => if hplace : place ∈ found data ∧ place.record ≠ none then
    (h place hplace.1 hplace.2).choose else place, fun place hplace hrecord => ?_⟩
  have hboth : place ∈ found data ∧ place.record ≠ none := ⟨hplace, hrecord⟩
  rw [OfLog, dif_pos hboth]
  exact (h place hplace hrecord).choose_spec

theorem Whole.joined_mem {batches : List (List UInt8)} {origin : Place → Place} {group : List Place}
    (h : Whole batches origin group) : joined group ∈ batches := by
  obtain ⟨-, -, batch, hbatch, hpieces⟩ := h
  have hjoined : ∀ places : List Place, joined places = (places.filterMap Place.record).flatMap Fragment.payload := by
    intro places
    induction places with
    | nil => rfl
    | cons place places ih =>
      rw [joined, List.flatMap_cons, ← joined, ih, List.filterMap_cons, Place.payload]
      cases place.record <;> simp
  rw [hjoined, hpieces.payload]
  exact hbatch

namespace Place

variable {place : Place}

theorem record_of_role (h : place.role ≠ .loss) : ∃ fragment, place.record = some fragment := by
  cases hrecord : place.record with
  | none => exact absurd (by rw [role, hrecord]) h
  | some fragment => exact ⟨fragment, rfl⟩

theorem role_of_kind {fragment : Fragment} (h : place.record = some fragment)
    (hknown : 1 ≤ fragment.kind.toNat ∧ fragment.kind.toNat ≤ 4) :
    (place.role = .whole ↔ fragment.kind = 1) ∧ (place.role = .first ↔ fragment.kind = 2) ∧
      (place.role = .middle ↔ fragment.kind = 3) ∧ (place.role = .last ↔ fragment.kind = 4) := by
  have h1 : fragment.kind = 1 ↔ fragment.kind.toNat = 1 := by rw [← UInt8.toNat_inj]; rfl
  have h2 : fragment.kind = 2 ↔ fragment.kind.toNat = 2 := by rw [← UInt8.toNat_inj]; rfl
  have h3 : fragment.kind = 3 ↔ fragment.kind.toNat = 3 := by rw [← UInt8.toNat_inj]; rfl
  have h4 : fragment.kind = 4 ↔ fragment.kind.toNat = 4 := by rw [← UInt8.toNat_inj]; rfl
  rw [role, h]
  simp only [h1, h2, h3, h4]
  split_ifs <;> simp <;> omega

end Place

section Stretch

variable {batches : List (List UInt8)} {data : List UInt8}

/-- A place that passes its checksum, and what was written there. -/
theorem InPlace.written (h : InPlace batches data) {place : Place} (hplace : place ∈ found data)
    (hrole : place.role ≠ .loss) : ∃ fragment, place.record = some fragment ∧
      (written batches place.block)[place.index]? = some fragment ∧
      1 ≤ fragment.kind.toNat ∧ fragment.kind.toNat ≤ 4 := by
  obtain ⟨fragment, hrecord⟩ := Place.record_of_role hrole
  obtain ⟨other, hother, hat⟩ := mem_written_iff.mp (h place hplace (by simp [hrecord]))
  obtain rfl : fragment = other := by rw [hrecord] at hother; exact Option.some_inj.mp hother
  exact ⟨fragment, hrecord, hat, known_written (List.mem_of_getElem? hat)⟩

/-- A stretch of what was written that begins and ends as a batch does is one. -/
theorem pieces_of_infix {group init : List Place} {last : Place} (hgroup : group = init ++ [last])
    (hwithin : group <:+: found (writeLog batches))
    (hinit : ∀ place ∈ init, place.role = .first ∨ place.role = .middle)
    (hlast : last.role = .whole ∨ last.role = .last)
    (hhead : ∀ head ∈ group.head?, head.role = .whole ∨ head.role = .first) :
    ∃ batch ∈ batches, Pieces true batch (group.filterMap Place.record) := by
  obtain ⟨cut, hflat, hcut⟩ := cut_spec batches
  have hrecords : group.filterMap Place.record <:+: cut.flatten := by
    rw [← hflat, ← records_writeLog]
    exact hwithin.filterMap Place.record
  have hknown : ∀ place ∈ group, ∃ fragment, place.record = some fragment ∧
      1 ≤ fragment.kind.toNat ∧ fragment.kind.toNat ≤ 4 := by
    intro place hplace
    obtain ⟨fragment, hrecord, hat⟩ := mem_written_iff.mp (hwithin.subset hplace)
    exact ⟨fragment, hrecord, known_written (List.mem_of_getElem? hat)⟩
  obtain ⟨final, hfinal, hfinalknown⟩ := hknown last (by simp [hgroup])
  have hfinalkind := Place.role_of_kind hfinal hfinalknown
  have hsplit : group.filterMap Place.record = init.filterMap Place.record ++ [final] := by
    rw [hgroup, List.filterMap_append]
    simp [hfinal]
  obtain ⟨before, after, heq⟩ := hrecords
  suffices hmem : init.filterMap Place.record ++ [final] ∈ cut by
    rw [hsplit]
    exact hcut _ hmem
  rw [hsplit] at heq
  refine mem_of_infix (fun parts hparts => (hcut parts hparts).imp fun _ h => h.2) heq.symm
    (fun fragment hfragment => ?_) ?_ (fun head hhead' => ?_)
  · obtain ⟨place, hplace, hrecord⟩ := List.mem_filterMap.mp hfragment
    obtain ⟨other, hother, hknown⟩ := hknown place (by simp [hgroup, hplace])
    obtain rfl : fragment = other := by rw [hrecord] at hother; exact Option.some_inj.mp hother
    have hkind := Place.role_of_kind hrecord hknown
    rcases hinit place hplace with hfirst | hmiddle
    · exact .inl (hkind.2.1.mp hfirst)
    · exact .inr (hkind.2.2.1.mp hmiddle)
  · rcases hlast with hwhole | hlast
    · exact .inl (hfinalkind.1.mp hwhole)
    · exact .inr (hfinalkind.2.2.2.mp hlast)
  · rw [← hsplit] at hhead'
    cases hlist : group with
    | nil => simp [hlist] at hhead'
    | cons place group =>
      obtain ⟨fragment, hrecord, hknown⟩ := hknown place (by simp [hlist])
      rw [hlist, List.filterMap_cons, hrecord] at hhead'
      obtain rfl : fragment = head := by simpa using hhead'
      have hkind := Place.role_of_kind hrecord hknown
      rcases hhead place (by simp [hlist]) with hwhole | hfirst
      · exact .inl (hkind.1.mp hwhole)
      · exact .inr (hkind.2.1.mp hfirst)

section Neighbours

variable {a b : Place}

/-- A piece of a batch that goes on is the last record of its block. -/
theorem length_written_of_goesOn (ha : a ∈ found (writeLog batches)) (hrole : a.role = .first ∨ a.role = .middle) :
    (written batches a.block).length = a.index + 1 := by
  obtain ⟨fragment, hrecord, hat⟩ := mem_written_iff.mp ha
  have hkind := Place.role_of_kind hrecord (known_written (List.mem_of_getElem? hat))
  obtain ⟨hlt, hget⟩ := List.getElem?_eq_some_iff.mp hat
  have hopen : fragment.kind = 2 ∨ fragment.kind = 3 := hrole.imp hkind.2.1.mp hkind.2.2.1.mp
  have htail := ((shaped_written batches a.block) ((written batches a.block).take a.index) fragment
    ((written batches a.block).drop (a.index + 1))
    (by rw [← hget, List.getElem_cons_drop, List.take_append_drop])).1 hopen
  have hlen := congrArg List.length htail
  rw [List.length_drop, List.length_nil] at hlen
  omega

/-- A piece of a batch that began before is the first record of its block. -/
theorem index_of_began (hb : b ∈ found (writeLog batches)) (hrole : b.role = .middle ∨ b.role = .last) :
    b.index = 0 := by
  obtain ⟨fragment, hrecord, hat⟩ := mem_written_iff.mp hb
  have hkind := Place.role_of_kind hrecord (known_written (List.mem_of_getElem? hat))
  obtain ⟨hlt, hget⟩ := List.getElem?_eq_some_iff.mp hat
  have hbegan : fragment.kind = 3 ∨ fragment.kind = 4 := hrole.imp hkind.2.2.1.mp hkind.2.2.2.mp
  have hinit := ((shaped_written batches b.block) ((written batches b.block).take b.index) fragment
    ((written batches b.block).drop (b.index + 1))
    (by rw [← hget, List.getElem_cons_drop, List.take_append_drop])).2 hbegan
  have hlen := congrArg List.length hinit
  rw [List.length_take, List.length_nil] at hlen
  omega

/-- What goes on goes on in a later block. -/
theorem block_lt_of_goesOn (ha : a ∈ found (writeLog batches)) (hb : b ∈ found (writeLog batches))
    (hopen : a.role = .first ∨ a.role = .middle) (hab : a.Before b) : a.block < b.block := by
  rcases hab with hlt | ⟨hblock, hlt⟩
  · exact hlt
  · obtain ⟨fragment, -, hat⟩ := mem_written_iff.mp hb
    have hend := length_written_of_goesOn ha hopen
    have hless := (List.getElem?_eq_some_iff.mp hat).1
    rw [← hblock, hend] at hless
    omega

/-- Between the blocks of two neighbours there is no place. -/
theorem block_le_of_neighbours {places : List Place} (hsorted : places.Pairwise Place.Before)
    (hpair : [a, b] <:+: places) {place : Place} (hplace : place ∈ places) (hafter : a.block < place.block) :
    b.block ≤ place.block := by
  by_contra hbefore
  have hmem := Fragments.mem_of_between hsorted hpair (show a ∈ [a, b] by simp) (show b ∈ [a, b] by simp)
    hplace (.inl hafter) (.inl (by omega))
  rcases List.mem_pair.mp hmem with rfl | rfl
  · exact Nat.lt_irrefl _ hafter
  · exact hbefore (Nat.le_refl _)

/-- Two pieces of batches stand one behind the other just where they were written to one block and the
next. -/
theorem neighbours_iff (ha : a ∈ found (writeLog batches)) (hb : b ∈ found (writeLog batches))
    (hopen : a.role = .first ∨ a.role = .middle) (hbegan : b.role = .middle ∨ b.role = .last) :
    [a, b] <:+: found (writeLog batches) ↔ b.block = a.block + 1 := by
  constructor
  · intro hinfix
    have hab : a.Before b := by
      have hpair := (sorted_found (writeLog batches)).sublist hinfix.sublist
      simpa using hpair
    have hlt := block_lt_of_goesOn ha hb hopen hab
    by_contra hskip
    -- the block between them holds a record, and the two are not neighbours
    obtain ⟨fragment, -, hat⟩ := mem_written_iff.mp hb
    have hbeyond : a.block + 1 < b.block := by omega
    obtain ⟨c, tail, hcons⟩ := List.exists_cons_of_ne_nil
      (written_ne_nil hbeyond (List.ne_nil_of_mem (List.mem_of_getElem? hat)))
    have hplace : ({ block := a.block + 1, index := 0, record := some c } : Place) ∈ found (writeLog batches) :=
      mem_written_iff.mpr ⟨c, rfl, by rw [hcons]; rfl⟩
    have hle := block_le_of_neighbours (sorted_found _) hinfix hplace (Nat.lt_succ_self _)
    exact absurd hbeyond (Nat.not_lt.mpr hle)
  · intro hnext
    have hab : a.Before b := .inl (by omega)
    refine Fragments.infix_of_between (sorted_found _) (by simpa using hab) (fun place hplace => ?_)
      fun x hx y hy place hplace hxp hpy => ?_
    · rcases List.mem_pair.mp hplace with rfl | rfl
      · exact ha
      · exact hb
    · have hap : a.Before place := by
        rcases List.mem_pair.mp hx with rfl | rfl
        · exact hxp
        · exact trans_of Place.Before hab hxp
      have hpb : place.Before b := by
        rcases List.mem_pair.mp hy with rfl | rfl
        · exact trans_of Place.Before hpy hab
        · exact hpy
      have hlater := block_lt_of_goesOn ha hplace hopen hap
      have hbegin := index_of_began hb hbegan
      rw [Place.Before] at hpb
      omega

/-- Two of the pieces that are put together, one behind the other. -/
theorem roles_of_neighbours {mid init tail : List Place} {first last : Place} (hfirst : first.role = .first)
    (hlast : last.role = .last)
    (heq : first :: Fragments.middles Place.role mid ++ [last] = init ++ a :: b :: tail) :
    (a.role = .first ∨ a.role = .middle) ∧ (b.role = .middle ∨ b.role = .last) := by
  have hmiddle : ∀ place ∈ Fragments.middles Place.role mid, place.role = .middle := by
    intro place hplace
    have hboth := List.mem_filter.mp hplace
    simpa using hboth.2
  constructor
  · have hmem : a ∈ first :: Fragments.middles Place.role mid := by
      have hdrop := congrArg List.dropLast heq
      rw [List.dropLast_concat] at hdrop
      rw [hdrop, List.dropLast_append_of_ne_nil (by simp)]
      simp
    rcases List.mem_cons.mp hmem with rfl | hin
    · exact .inl hfirst
    · exact .inr (hmiddle a hin)
  · have hmem : b ∈ Fragments.middles Place.role mid ++ [last] := by
      have htail := congrArg List.tail heq
      rw [List.cons_append, List.tail_cons] at htail
      rw [htail]
      cases init <;> simp
    rcases List.mem_append.mp hmem with hin | hin
    · exact .inl (hmiddle b hin)
    · rw [List.mem_singleton.mp hin]
      exact .inr hlast

end Neighbours

/-- What is put together are records that were read. -/
theorem found_of_gathered {group : List Place} (hgroup : group ∈ gathered data) {place : Place}
    (hplace : place ∈ group) : place ∈ found data ∧ place.role ≠ .loss := by
  rcases Fragments.mem_groups_iff.mp hgroup with ⟨whole, hwhole, hrole, rfl⟩ |
    ⟨before, first, mid, last, after, heq, hfirst, hcalm, hlast, rfl⟩
  · rw [List.mem_singleton.mp hplace]
    exact ⟨hwhole, by simp [hrole]⟩
  · rw [List.mem_append, List.mem_cons, List.mem_singleton, Fragments.middles, List.mem_filter] at hplace
    rw [heq]
    rcases hplace with (rfl | ⟨hin, hrole⟩) | rfl
    · simp [hfirst]
    · have hmiddle : place.role = .middle := by simpa using hrole
      simp [hin, hmiddle]
    · simp [hlast]

section Origin

variable {origin : Place → Place}

theorem OfLog.role {place : Place} (h : OfLog batches origin place) : (origin place).role = place.role := by
  rw [Place.role, Place.role, h.2]

theorem records_origin {group : List Place} (h : ∀ place ∈ group, OfLog batches origin place) :
    (group.map origin).filterMap Place.record = group.filterMap Place.record := by
  rw [List.filterMap_map]
  exact List.filterMap_congr fun place hplace => (h place hplace).2

/-- Where two neighbours of what is put together come from. -/
theorem neighbours_origin_iff {mid init tail : List Place} {first last : Place} (hfirst : first.role = .first)
    (hlast : last.role = .last)
    (hall : ∀ place ∈ first :: Fragments.middles Place.role mid ++ [last], OfLog batches origin place)
    (heq : first :: Fragments.middles Place.role mid ++ [last] = init ++ a :: b :: tail) :
    [origin a, origin b] <:+: found (writeLog batches) ↔ (origin b).block = (origin a).block + 1 := by
  obtain ⟨hopen, hbegan⟩ := roles_of_neighbours hfirst hlast heq
  have ha := hall a (by rw [heq]; simp)
  have hb := hall b (by rw [heq]; simp)
  exact neighbours_iff ha.1 hb.1 (by rwa [ha.role]) (by rwa [hb.role])

/-- A record of its own is a batch. -/
theorem whole_of_whole {place : Place} (hone : OfLog batches origin place) (hrole : place.role = .whole) :
    Whole batches origin [place] := by
  have hall : ∀ other ∈ [place], OfLog batches origin other := List.forall_mem_singleton.mpr hone
  have hrole' : (origin place).role = .whole := hone.role.trans hrole
  obtain ⟨init, tail, hsplit⟩ := List.append_of_mem hone.1
  have hwithin : [origin place] <:+: found (writeLog batches) := ⟨init, tail, by rw [hsplit]; simp⟩
  have hconcat : [origin place] = [] ++ [origin place] := rfl
  refine ⟨hall, hwithin, ?_⟩
  rw [← records_origin hall]
  exact pieces_of_infix hconcat hwithin (by simp) (.inl hrole') (by simp [hrole'])

/-- Pieces that come from one block after the other are a batch. -/
theorem whole_of_chain {mid : List Place} {first last : Place} (hfirst : first.role = .first)
    (hlast : last.role = .last)
    (hall : ∀ place ∈ first :: Fragments.middles Place.role mid ++ [last], OfLog batches origin place)
    (hchain : (first :: Fragments.middles Place.role mid ++ [last]).IsChain fun a b =>
      (origin b).block = (origin a).block + 1) :
    Whole batches origin (first :: Fragments.middles Place.role mid ++ [last]) := by
  have hwithin : (first :: Fragments.middles Place.role mid ++ [last]).map origin <:+:
      found (writeLog batches) := by
    have hnodup : (found (writeLog batches)).Nodup := by
      refine (sorted_found _).imp ?_
      rintro a b hlt rfl
      exact irrefl_of Place.Before a hlt
    refine Fragments.infix_of_neighbours hnodup (fun place hplace => ?_) ?_
    · obtain ⟨read, hread, rfl⟩ := List.mem_map.mp hplace
      exact (hall read hread).1
    · rw [List.isChain_map, List.isChain_iff_forall_rel_of_append_cons_cons]
      intro a b init tail hsplit
      exact (neighbours_origin_iff hfirst hlast hall hsplit).mpr
        (List.isChain_iff_forall_rel_of_append_cons_cons.mp hchain hsplit)
  have hconcat : (first :: Fragments.middles Place.role mid ++ [last]).map origin =
      (first :: Fragments.middles Place.role mid).map origin ++ [origin last] := by
    rw [List.map_append, List.map_singleton]
  refine ⟨hall, hwithin, ?_⟩
  rw [← records_origin hall]
  refine pieces_of_infix hconcat hwithin (fun place hplace => ?_) (.inr ?_) fun head hhead => ?_
  · obtain ⟨read, hread, rfl⟩ := List.mem_map.mp hplace
    rw [(hall read (List.mem_append_left _ hread)).role]
    rcases List.mem_cons.mp hread with rfl | hin
    · exact .inl hfirst
    · exact .inr (by simpa using (List.mem_filter.mp hin).2)
  · rw [(hall last (by simp)).role, hlast]
  · obtain rfl : origin first = head := by simpa using hhead
    rw [(hall first (by simp)).role]
    exact .inr hfirst

/-- Of pieces that come from the log, those put together are a batch that was written as long as each comes
from the block behind that of the one before. -/
theorem applied_whole_iff : (∀ group ∈ gathered data, Whole batches origin group) ↔
    (∀ group ∈ gathered data, ∀ place ∈ group, OfLog batches origin place) ∧ ¬ Skips origin data := by
  constructor
  · intro hwhole
    refine ⟨fun group hgroup => (hwhole group hgroup).1, ?_⟩
    rintro ⟨before, first, mid, last, after, heq, hfirst, hcalm, hlast, hskip⟩
    obtain ⟨hof, hwithin, -⟩ := hwhole _
      (Fragments.mem_groups_iff.mpr (.inr ⟨before, first, mid, last, after, heq, hfirst, hcalm, hlast, rfl⟩))
    refine hskip (List.isChain_iff_forall_rel_of_append_cons_cons.mpr fun a b init tail hsplit => ?_)
    refine (neighbours_origin_iff hfirst hlast hof hsplit).mp ?_
    rw [hsplit, List.map_append] at hwithin
    exact .trans ⟨init.map origin, tail.map origin, by simp⟩ hwithin
  · rintro ⟨hof, hno⟩ group hgroup
    have hall := hof group hgroup
    rcases Fragments.mem_groups_iff.mp hgroup with ⟨place, -, hrole, rfl⟩ |
      ⟨before, first, mid, last, after, heq, hfirst, hcalm, hlast, rfl⟩
    · exact whole_of_whole (hall place List.mem_cons_self) hrole
    · refine whole_of_chain hfirst hlast hall ?_
      by_contra hskip
      exact hno ⟨before, first, mid, last, after, heq, hfirst, hcalm, hlast, hskip⟩

end Origin

/-- What is read between two places of the file stands between them in the list. -/
theorem mem_mid {before mid after : List Place} {first last place : Place}
    (heq : found data = before ++ first :: mid ++ last :: after) (hplace : place ∈ found data)
    (hfirst : first.Before place) (hlast : place.Before last) : place ∈ mid := by
  have hsorted := sorted_found data
  rw [heq, List.append_assoc, List.pairwise_append, List.cons_append, List.pairwise_cons,
    List.pairwise_append, List.pairwise_cons] at hsorted
  obtain ⟨-, ⟨-, -, ⟨hbeyond, -⟩, -⟩, hbelow⟩ := hsorted
  have hirrefl := irrefl_of Place.Before
  have htrans : ∀ {a b c : Place}, a.Before b → b.Before c → a.Before c := trans_of Place.Before
  rw [heq] at hplace
  simp only [List.mem_append, List.mem_cons] at hplace
  rcases hplace with ((hin | rfl | hin) | rfl | hin)
  · exact absurd (htrans hfirst (hbelow place hin first List.mem_cons_self)) (hirrefl first)
  · exact absurd hfirst (hirrefl place)
  · exact hin
  · exact absurd hlast (hirrefl place)
  · exact absurd (htrans hlast (hbeyond place hin)) (hirrefl place)

section Between

variable {before mid after : List Place} {first last : Place}

/-- Block by block from the first piece on: each one is a middle piece and nothing else. -/
theorem middle_of_between (hun : InPlace batches data)
    (heq : found data = before ++ first :: mid ++ last :: after) (hfirst : first.role = .first)
    (hcalm : Fragments.Calm Place.role mid)
    (hgap : ∀ gap, first.block < gap → gap < last.block → ∃ place ∈ found data, place.block = gap)
    {block : ℕ} (hge : first.block ≤ block) (hlt : block < last.block) :
    (∃ init a, written batches block = init ++ [a] ∧ (a.kind = 2 ∨ a.kind = 3)) ∧
      (first.block < block → ∃ a, written batches block = [a] ∧ a.kind = 3 ∧
        ({ block, index := 0, record := some a } : Place) ∈ mid) := by
  induction block, hge using Nat.le_induction with
  | base =>
    refine ⟨?_, fun h => absurd h (Nat.lt_irrefl _)⟩
    have hin : first ∈ found data := by rw [heq]; simp
    obtain ⟨a, hrecord, hat, hknown⟩ := hun.written hin (by rw [hfirst]; decide)
    have hkind := (Place.role_of_kind hrecord hknown).2.1.mp hfirst
    obtain ⟨init, tail, hsplit⟩ := List.append_of_mem (List.mem_of_getElem? hat)
    have htail := ((shaped_written batches first.block) init a tail hsplit).1 (.inl hkind)
    exact ⟨init, a, by rw [hsplit, htail], .inl hkind⟩
  | succ block hge ih =>
    obtain ⟨⟨init, a, hinit, hkind⟩, -⟩ := ih (by omega)
    obtain ⟨place, hplace, hblock⟩ := hgap (block + 1) (by omega) hlt
    have hin := mem_mid heq hplace (.inl (by omega)) (.inl (by omega))
    have hloss : place.role ≠ .loss := by rcases hcalm place hin with h | h <;> simp [h]
    obtain ⟨fragment, hrecord⟩ := Place.record_of_role hloss
    -- something is read of the block, so its first record is
    have hread : ∃ b, (readRecords (chunk logBlock (block + 1) data)).1[0]? = some b := by
      rw [mem_found_iff, mem_places_iff, hblock, hrecord] at hplace
      obtain ⟨-, ⟨other, -, hat⟩ | ⟨hnone, -⟩⟩ := hplace
      · have hlen := (List.getElem?_eq_some_iff.mp hat).1
        exact ⟨_, List.getElem?_eq_getElem (by omega)⟩
      · exact absurd hnone (by simp)
    obtain ⟨b, hread⟩ := hread
    have hhead : ({ block := block + 1, index := 0, record := some b } : Place) ∈ found data :=
      mem_found_iff.mpr (mem_places_iff.mpr ⟨rfl, .inl ⟨b, rfl, hread⟩⟩)
    have hheadmid := mem_mid heq hhead (.inl (by simp only; omega)) (.inl (by simp only; omega))
    obtain ⟨other, hother, hat, hknown⟩ := hun.written hhead (by
      rcases hcalm _ hheadmid with h | h <;> simp [h])
    obtain rfl : other = b := (Option.some_inj.mp hother).symm
    obtain ⟨c, tail, hcons⟩ := List.exists_cons_of_ne_nil (List.ne_nil_of_mem (List.mem_of_getElem? hat))
    obtain rfl : c = other := by
      rw [hcons] at hat
      simpa using hat
    have hgoes := goesOn_next hinit hcons hkind
    have hroles := Place.role_of_kind hother hknown
    have hthree : c.kind = 3 := by
      rcases hcalm _ hheadmid with hwhole | hmiddle
      · have hone := hroles.1.mp hwhole
        rw [hone] at hgoes
        exact absurd hgoes (by decide)
      · exact hroles.2.2.1.mp hmiddle
    have htail := ((shaped_written batches (block + 1)) [] c tail hcons).1 (.inr hthree)
    rw [htail] at hcons
    exact ⟨⟨[], c, hcons, .inr hthree⟩, fun _ => ⟨c, hcons, hthree, hheadmid⟩⟩

end Between

/-- Along pieces each of which comes from the block behind that of the one before, no block is left out. -/
theorem block_of_chain {first last : Place} {places : List Place}
    (hchain : (first :: places).IsChain fun a b => b.block = a.block + 1)
    (hlast : (first :: places).getLast? = some last) {block : ℕ} (hge : first.block ≤ block)
    (hle : block ≤ last.block) : ∃ place ∈ first :: places, place.block = block := by
  induction places generalizing first with
  | nil =>
    obtain rfl : first = last := by simpa using hlast
    exact ⟨first, List.mem_cons_self, Nat.le_antisymm hge hle⟩
  | cons place places ih =>
    rw [List.isChain_cons_cons] at hchain
    rcases Nat.eq_or_lt_of_le hge with heq | hlt
    · exact ⟨first, List.mem_cons_self, heq⟩
    · rw [List.getLast?_cons_cons] at hlast
      obtain ⟨other, hother, hblock⟩ := ih hchain.2 hlast (by omega)
      exact ⟨other, List.mem_cons_of_mem _ hother, hblock⟩

section Joined

variable {before mid after : List Place} {first last : Place}
  (heq : found data = before ++ first :: mid ++ last :: after)

include heq

theorem sorted_joined : (first :: Fragments.middles Place.role mid ++ [last]).Pairwise Place.Before := by
  have hmid : (first :: Fragments.middles Place.role mid ++ [last]).Sublist (first :: mid ++ [last]) :=
    (List.filter_sublist.cons_cons first).append (List.Sublist.refl _)
  have hstretch : first :: mid ++ [last] <:+: found data := ⟨before, after, by rw [heq]; simp⟩
  exact (sorted_found data).sublist (hmid.trans hstretch.sublist)

theorem block_le_joined {place : Place} (hplace : place ∈ first :: Fragments.middles Place.role mid ++ [last]) :
    first.block ≤ place.block ∧ place.block ≤ last.block := by
  have hle : ∀ {a b : Place}, a.Before b → a.block ≤ b.block := by
    rintro a b (hlt | ⟨hblock, -⟩)
    · exact hlt.le
    · exact hblock.le
  have hsorted := sorted_joined heq
  constructor
  · rcases List.mem_cons.mp hplace with rfl | hlater
    · exact Nat.le_refl _
    · exact hle ((List.pairwise_cons.mp hsorted).1 place hlater)
  · rcases List.mem_append.mp hplace with hearlier | hend
    · exact hle ((List.pairwise_append.mp hsorted).2.2 place hearlier last List.mem_cons_self)
    · rw [List.mem_singleton.mp hend]

variable (hfirst : first.role = .first) (hcalm : Fragments.Calm Place.role mid) (hlast : last.role = .last)

include hfirst hcalm hlast

theorem gathered_joined : first :: Fragments.middles Place.role mid ++ [last] ∈ gathered data :=
  Fragments.mem_groups_iff.mpr (.inr ⟨before, first, mid, last, after, heq, hfirst, hcalm, hlast, rfl⟩)

/-- Where something is read of every block between the two, each piece is followed by one of the next block. -/
theorem chain_of_no_gap (hin : InPlace batches data)
    (hread : ∀ gap, first.block < gap → gap < last.block → ∃ place ∈ found data, place.block = gap) :
    (first :: Fragments.middles Place.role mid ++ [last]).IsChain fun a b => b.block = a.block + 1 := by
  refine List.isChain_iff_forall_rel_of_append_cons_cons.mpr fun a b init tail hsplit => ?_
  obtain ⟨hopen, -⟩ := roles_of_neighbours hfirst hlast hsplit
  have hsorted := sorted_joined heq
  have hpair : [a, b] <:+: first :: Fragments.middles Place.role mid ++ [last] :=
    ⟨init, tail, by rw [hsplit]; simp⟩
  have hamem := hpair.subset (show a ∈ [a, b] by simp)
  have hbmem := hpair.subset (show b ∈ [a, b] by simp)
  have hwritten : ∀ place ∈ first :: Fragments.middles Place.role mid ++ [last],
      place ∈ found (writeLog batches) := by
    intro place hplace
    obtain ⟨hfound, hrole⟩ := found_of_gathered (gathered_joined heq hfirst hcalm hlast) hplace
    obtain ⟨fragment, hrecord⟩ := Place.record_of_role hrole
    exact hin place hfound (by simp [hrecord])
  have hlt := block_lt_of_goesOn (hwritten a hamem) (hwritten b hbmem) hopen
    (by simpa using hsorted.sublist hpair.sublist)
  by_contra hskipped
  -- a middle piece was read of the block behind the earlier piece's, and the two are not neighbours
  have hfirsta := (block_le_joined heq hamem).1
  have hblast := (block_le_joined heq hbmem).2
  have hge : first.block ≤ a.block + 1 := by omega
  have hbelow : a.block + 1 < last.block := by omega
  obtain ⟨c, -, hthree, hmid⟩ := (middle_of_between hin heq hfirst hcalm hread hge hbelow).2 (by omega)
  have hrole : ({ block := a.block + 1, index := 0, record := some c } : Place).role = .middle := by
    rw [Place.role]
    simp [hthree]
  have hmem : ({ block := a.block + 1, index := 0, record := some c } : Place) ∈
      first :: Fragments.middles Place.role mid ++ [last] :=
    List.mem_append_left _ (List.mem_cons_of_mem _ (List.mem_filter.mpr ⟨hmid, decide_eq_true hrole⟩))
  have hle := block_le_of_neighbours hsorted hpair hmem (Nat.lt_succ_self _)
  have hlater : b.block ≤ a.block + 1 := hle
  omega

end Joined

/-- Where bytes are only changed, a block is left out just where nothing is read of it. -/
theorem skips_id_iff (hin : InPlace batches data) : Skips id data ↔ JoinsOverGap data := by
  constructor
  · rintro ⟨before, first, mid, last, after, heq, hfirst, hcalm, hlast, hskip⟩
    refine ⟨before, first, mid, last, after, heq, hfirst, hcalm, hlast, ?_⟩
    by_contra hno
    push Not at hno
    exact hskip (chain_of_no_gap heq hfirst hcalm hlast hin hno)
  · rintro ⟨before, first, mid, last, after, heq, hfirst, hcalm, hlast, gap, hafter, hbefore, hgap⟩
    refine ⟨before, first, mid, last, after, heq, hfirst, hcalm, hlast, fun hchain => ?_⟩
    have hend : (first :: (Fragments.middles Place.role mid ++ [last])).getLast? = some last := by
      rw [← List.cons_append, List.getLast?_concat]
    obtain ⟨place, hplace, hblock⟩ := block_of_chain hchain hend (Nat.le_of_lt hafter) (Nat.le_of_lt hbefore)
    exact hgap place (found_of_gathered (gathered_joined heq hfirst hcalm hlast) hplace).1 hblock

end Stretch

section Gap

/-- What a block has room for besides a header. -/
def room : ℕ := logBlock - logHeaderLen

variable {full : List (List Fragment)} {fragment : Fragment} {first : Bool} {rest : List UInt8}

theorem used_singleton (fragment : Fragment) : used [fragment] = logHeaderLen + fragment.payload.length := by
  simp [used]

theorem roomy_filled (h : fragment.payload.length = room) :
    ({ full, current := [fragment] } : Layout).roomy = { full := full ++ [[fragment]], current := [] } := by
  have hlen : logBlock < used [fragment] + logHeaderLen := by
    rw [used_singleton, h]
    decide
  rw [Layout.roomy, if_pos hlen]

theorem nextCount_fresh {layout : Layout} (h : layout.roomy.current = []) :
    nextCount layout rest = min rest.length room := by
  rw [nextCount, h]
  rfl

theorem layBatch_fresh {layout : Layout} (h : layout.roomy.current = []) (hlong : room < rest.length)
    (fuel : ℕ) : layBatch (fuel + 1) layout rest first = layBatch fuel
      { full := layout.roomy.full, current := [{ kind := fragmentKind first false, payload := rest.take room }] }
      (rest.drop room) false := by
  have hcount : nextCount layout rest = room := by
    rw [nextCount_fresh h]
    omega
  have hmore : nextLast layout rest = false := by
    rw [nextLast, hcount]
    simpa using Nat.ne_of_lt hlong
  rw [layBatch_succ, pushNext, hmore, hcount, Layout.push, h]
  rfl

theorem layBatch_rest {layout : Layout} (h : layout.roomy.current = []) (hshort : rest.length ≤ room)
    (fuel : ℕ) : layBatch (fuel + 1) layout rest first =
      { full := layout.roomy.full, current := [{ kind := fragmentKind first true, payload := rest }] } := by
  have hcount : nextCount layout rest = rest.length := by
    rw [nextCount_fresh h]
    omega
  have hlast : nextLast layout rest = true := by
    rw [nextLast, hcount]
    exact beq_self_eq_true _
  rw [layBatch_succ, pushNext, hlast, hcount, Layout.push, h, List.take_length]
  rfl

variable {batch : List UInt8}

/-- The pieces of a batch that takes three blocks. -/
def piece (batch : List UInt8) : ℕ → Fragment
  | 0 => { kind := 2, payload := batch.take room }
  | 1 => { kind := 3, payload := (batch.drop room).take room }
  | _ => { kind := 4, payload := (batch.drop room).drop room }

theorem lay_three (hlong : room < (batch.drop room).length) (hshort : ((batch.drop room).drop room).length ≤ room) :
    lay [batch] = { full := [[piece batch 0], [piece batch 1]], current := [piece batch 2] } := by
  have hstart : lay [batch] = layBatch (batch.length + 2) .empty batch true := rfl
  have hbatch : room < batch.length := by
    rw [List.length_drop] at hlong
    omega
  have hfuel : batch.length = (batch.length - 1) + 1 := by omega
  have hempty : Layout.empty.roomy = .empty := if_neg (by decide)
  have hone := @roomy_filled [] (piece batch 0) (by rw [piece, List.length_take]; omega)
  have htwo := @roomy_filled [[piece batch 0]] (piece batch 1) (by rw [piece, List.length_take]; omega)
  rw [hstart, layBatch_fresh (by rw [hempty]; rfl) hbatch, hempty]
  change layBatch (batch.length + 1) { full := [], current := [piece batch 0] } (batch.drop room) false = _
  rw [layBatch_fresh (by rw [hone]) hlong, hone]
  change layBatch batch.length { full := [[piece batch 0]], current := [piece batch 1] }
    ((batch.drop room).drop room) false = _
  rw [hfuel, layBatch_rest (by rw [htwo]) hshort, htwo]
  rfl

section ThreeBlocks

variable (hlong : room < (batch.drop room).length) (hshort : ((batch.drop room).drop room).length ≤ room)
include hlong hshort

theorem length_padded_piece {block : ℕ} (hblock : block ≤ 1) : (padded [piece batch block]).length = logBlock := by
  obtain ⟨-, hok, -⟩ := lay_spec [batch]
  rw [lay_three hlong hshort] at hok
  refine Layout.length_padded (hok.full [piece batch block] ?_).1
  rcases Nat.le_one_iff_eq_zero_or_eq_one.mp hblock with rfl | rfl <;> simp

/-- The first two blocks are full, and the third holds what is left. -/
theorem writeLog_three : writeLog [batch] =
    padded [piece batch 0] ++ (padded [piece batch 1] ++ [piece batch 2].flatMap frame) := by
  obtain ⟨hbytes, -, -⟩ := lay_spec [batch]
  rw [hbytes, lay_three hlong hshort, Layout.bytes]
  simp

theorem take_three : (writeLog [batch]).take logBlock = padded [piece batch 0] := by
  rw [writeLog_three hlong hshort, ← length_padded_piece hlong hshort (Nat.zero_le 1), List.take_append_length]

theorem drop_three : (writeLog [batch]).drop (2 * logBlock) = [piece batch 2].flatMap frame := by
  have htwice : 2 * logBlock = (padded [piece batch 0] ++ padded [piece batch 1]).length := by
    rw [List.length_append, length_padded_piece hlong hshort (Nat.zero_le 1),
      length_padded_piece hlong hshort (Nat.le_refl 1), Nat.two_mul]
  rw [writeLog_three hlong hshort, ← List.append_assoc, htwice, List.drop_append_length]

end ThreeBlocks

/-- The log of a batch whose second block was never written. -/
def gapped (batch : List UInt8) : List UInt8 :=
  (writeLog [batch]).take logBlock ++ List.replicate logBlock 0 ++ (writeLog [batch]).drop (2 * logBlock)

theorem gapped_eq (hlong : room < (batch.drop room).length)
    (hshort : ((batch.drop room).drop room).length ≤ room) :
    gapped batch = Layout.bytes { full := [[piece batch 0], []], current := [piece batch 2] } := by
  have hnil : padded [] = List.replicate logBlock 0 := rfl
  rw [gapped, take_three hlong hshort, drop_three hlong hshort, ← hnil, Layout.bytes]
  simp

/-- Of a block of zeroes nothing is read. -/
theorem readRecords_zeros (length : ℕ) : readRecords (List.replicate length 0) = ([], false) := by
  have hat : recordAt (List.replicate length 0) = .ended ∨ recordAt (List.replicate length 0) = .torn := by
    by_cases hshort : length < logHeaderLen
    · left
      rw [recordAt, List.length_replicate, if_pos hshort]
    · right
      have hfour : min 2 (length - 4) = 2 := by
        rw [logHeaderLen] at hshort
        omega
      have hkind : ((List.replicate length (0 : UInt8)).drop 6).headD 0 = 0 := by
        rw [List.drop_replicate]
        cases length - 6 <;> rfl
      have hlen : ofLe (((List.replicate length (0 : UInt8)).drop 4).take 2) = 0 := by
        rw [List.drop_replicate, List.take_replicate, hfour]
        decide
      rw [recordAt, if_neg (by rw [List.length_replicate]; exact hshort)]
      simp only [hkind, hlen]
      rw [if_pos (.inl ⟨trivial, trivial⟩)]
  rw [readRecords, List.length_replicate]
  cases length with
  | zero => rfl
  | succ length => rcases hat with hat | hat <;> simp [blockRecords, hat]

theorem found_gapped (hlong : room < (batch.drop room).length)
    (hshort : ((batch.drop room).drop room).length ≤ room) :
    found (gapped batch) = [{ block := 0, index := 0, record := some (piece batch 0) },
      { block := 2, index := 0, record := some (piece batch 2) }] := by
  obtain ⟨-, hok, -⟩ := lay_spec [batch]
  rw [lay_three hlong hshort] at hok
  have hfull := hok.full [piece batch 0] (by simp)
  have hlengths : ∀ block ∈ [[piece batch 0], []], (padded block).length = logBlock := by
    intro block hblock
    rcases List.mem_pair.mp hblock with rfl | rfl
    · exact Layout.length_padded hfull.1
    · exact Layout.length_padded (Nat.zero_le _)
  have hcount : ((gapped batch).length + logBlock - 1) / logBlock ≤ 3 := by
    have hwithin := hok.within
    have hpos : 0 < logBlock := by decide
    have hlen : (gapped batch).length = logBlock + logBlock + used [piece batch 2] := by
      rw [gapped_eq hlong hshort, Layout.bytes, List.length_append, ← used]
      simp [hlengths]
    rw [← Nat.lt_succ_iff, Nat.div_lt_iff_lt_mul hpos, hlen]
    simp only at hwithin
    omega
  have hchunk := chunk_flatMap hlengths hok.within
  have hbytes : gapped batch = [[piece batch 0], []].flatMap padded ++ [piece batch 2].flatMap frame :=
    gapped_eq hlong hshort
  have hfits := hok.fits
  have hzero : readRecords (padded [piece batch 0]) = ([piece batch 0], false) := by
    refine readRecords_frames (hfits _ (by simp)) ?_
    rw [List.length_replicate]
    omega
  have htwo : readRecords ([piece batch 2].flatMap frame) = ([piece batch 2], false) := by
    have hnil : ([] : List UInt8).length < logHeaderLen := by decide
    simpa using readRecords_frames (hfits [piece batch 2] (by simp)) hnil
  have hone : readRecords (padded []) = ([], false) := readRecords_zeros _
  have h0 : readRecords (chunk logBlock 0 (gapped batch)) = ([piece batch 0], false) := by
    rw [hbytes, ← hzero]
    exact congrArg readRecords (hchunk 0)
  have h1 : readRecords (chunk logBlock 1 (gapped batch)) = ([], false) := by
    rw [hbytes, ← hone]
    exact congrArg readRecords (hchunk 1)
  have h2 : readRecords (chunk logBlock 2 (gapped batch)) = ([piece batch 2], false) := by
    rw [hbytes, ← htwo]
    exact congrArg readRecords (hchunk 2)
  have hrange : List.range 3 = [0, 1, 2] := rfl
  rw [found_eq hcount, hrange]
  simp only [List.flatMap_cons, List.flatMap_nil, h0, h1, h2]
  rfl

/-- The log of a batch whose second block is cut out. -/
def cutOut (batch : List UInt8) : List UInt8 :=
  (writeLog [batch]).take logBlock ++ (writeLog [batch]).drop (2 * logBlock)

theorem found_cutOut (hlong : room < (batch.drop room).length)
    (hshort : ((batch.drop room).drop room).length ≤ room) :
    found (cutOut batch) = [{ block := 0, index := 0, record := some (piece batch 0) },
      { block := 1, index := 0, record := some (piece batch 2) }] := by
  obtain ⟨-, hok, -⟩ := lay_spec [batch]
  rw [lay_three hlong hshort] at hok
  have hcut : cutOut batch = Layout.bytes { full := [[piece batch 0]], current := [piece batch 2] } := by
    rw [cutOut, take_three hlong hshort, drop_three hlong hshort, Layout.bytes]
    simp
  have hokCut : ({ full := [[piece batch 0]], current := [piece batch 2] } : Layout).Ok :=
    { full := fun block hblock => hok.full block (by simp_all)
      within := hok.within
      fits := fun block hblock => hok.fits block (by
        rcases List.mem_pair.mp hblock with rfl | rfl <;> simp) }
  rw [hcut, hokCut.found_bytes]
  rfl

theorem found_three (hlong : room < (batch.drop room).length)
    (hshort : ((batch.drop room).drop room).length ≤ room) :
    found (writeLog [batch]) = [{ block := 0, index := 0, record := some (piece batch 0) },
      { block := 1, index := 0, record := some (piece batch 1) },
      { block := 2, index := 0, record := some (piece batch 2) }] := by
  obtain ⟨hbytes, hok, -⟩ := lay_spec [batch]
  rw [lay_three hlong hshort] at hbytes hok
  rw [hbytes, hok.found_bytes]
  rfl

/-- The first and the last piece of the batch are joined without what stood between them. -/
theorem readLog_joined {data : List UInt8} {block : ℕ}
    (hfound : found data = [{ block := 0, index := 0, record := some (piece batch 0) },
      { block, index := 0, record := some (piece batch 2) }]) :
    readLog (fun batch applied => applied ++ [batch]) data [] =
      [batch.take room ++ (batch.drop room).drop room] := by
  rw [readLog_eq, gathered, hfound]
  simp [Fragments.gather, Fragments.State.take, Place.role, piece, joined, Place.payload]

theorem uncollided_joined {data : List UInt8} {block : ℕ} (hlong : room < (batch.drop room).length)
    (hshort : ((batch.drop room).drop room).length ≤ room)
    (hfound : found data = [{ block := 0, index := 0, record := some (piece batch 0) },
      { block, index := 0, record := some (piece batch 2) }]) : Uncollided [batch] data := by
  intro place hplace _
  rw [hfound] at hplace
  rw [found_three hlong hshort]
  rcases List.mem_pair.mp hplace with rfl | rfl <;> simp

/-- A batch that takes three blocks. -/
def threeBlocks : List UInt8 := List.replicate 70000 7

theorem threeBlocks_long : room < (threeBlocks.drop room).length := by
  rw [threeBlocks, List.length_drop, List.length_replicate]
  decide

theorem threeBlocks_short : ((threeBlocks.drop room).drop room).length ≤ room := by
  rw [threeBlocks, List.length_drop, List.length_drop, List.length_replicate]
  decide

end Gap

end UwuSsh.Chromium

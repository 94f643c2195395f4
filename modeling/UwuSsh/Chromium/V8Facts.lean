import UwuSsh.Chromium.V8

/-!
What reading a V8 value comes to. Every node that a value has is paid for: the node count grows by at least
what is made, so no value, finished or not, has more nodes than the count, and the weight of an object is what
the count grew by while it was read. How deep a value goes is decided by what was put in without being read.
-/
namespace UwuSsh.Chromium.V8

open Attempt

/-! ### Depths and nodes -/

theorem depths_le_iff {items : List Value} {n : ℕ} : depths items ≤ n ↔ ∀ v ∈ items, v.depth ≤ n := by
  induction items with
  | nil => simp [depths]
  | cons item items ih => simp [depths, ih]

theorem depthsOf_le_iff {properties : List (String × Value)} {n : ℕ} :
    depthsOf properties ≤ n ↔ ∀ p ∈ properties, p.2.depth ≤ n := by
  induction properties with
  | nil => simp [depthsOf]
  | cons p properties ih => simp [depthsOf, ih]

theorem depthsIn_le_iff {entries : List (Value × Value)} {n : ℕ} :
    depthsIn entries ≤ n ↔ ∀ e ∈ entries, e.1.depth ≤ n ∧ e.2.depth ≤ n := by
  induction entries with
  | nil => simp [depthsIn]
  | cons e entries ih =>
    rw [depthsIn, max_le_iff, max_le_iff, ih, List.forall_mem_cons]

@[simp] theorem count_concat (items : List Value) (item : Value) :
    count (items ++ [item]) = count items + item.nodes := by
  induction items with
  | nil => simp [count]
  | cons first items ih =>
    simp only [List.cons_append, count, ih]
    omega

@[simp] theorem countOf_concat (properties : List (String × Value)) (p : String × Value) :
    countOf (properties ++ [p]) = countOf properties + p.2.nodes := by
  induction properties with
  | nil => simp [countOf]
  | cons first properties ih =>
    simp only [List.cons_append, countOf, ih]
    omega

@[simp] theorem countIn_concat (entries : List (Value × Value)) (e : Value × Value) :
    countIn (entries ++ [e]) = countIn entries + (e.1.nodes + e.2.nodes) := by
  induction entries with
  | nil => simp [countIn]
  | cons first entries ih =>
    simp only [List.cons_append, countIn, ih]
    omega

/-- A slot that is overwritten costs no more than what it now holds. -/
theorem count_set_le (items : List Value) (i : ℕ) (item : Value) :
    count (items.set i item) ≤ count items + item.nodes := by
  induction items generalizing i with
  | nil => simp [count]
  | cons first items ih =>
    cases i with
    | zero =>
      simp only [List.set_cons_zero, count]
      omega
    | succ i =>
      have hrest := ih i
      simp only [List.set_cons_succ, count]
      omega

theorem count_replicate (n : ℕ) : count (List.replicate n .undefined) = n := by
  induction n with
  | zero => rfl
  | succ n ih =>
    have hone : Value.undefined.nodes = 1 := by simp [Value.nodes]
    rw [List.replicate_succ, count, ih, hone]
    omega

/-! ### How deep the parts reach -/

/-- Read where the depth is `d`, the value stays within the limit just when what it was not read from does. -/
def Part.Fits (part : Part) (d : ℕ) : Prop :=
  d + part.value.depth ≤ maxDepth ↔ ∀ reach ∈ part.reaches, reach ≤ maxDepth

theorem fits_leaf {value : Value} {d : ℕ} (hd : d < maxDepth) (hvalue : value.depth = 1) :
    (Part.leaf value).Fits d := by
  have hdepth : (Part.leaf value).value.depth = 1 := hvalue
  have hreaches : (Part.leaf value).reaches = [] := rfl
  rw [Part.Fits, hdepth, hreaches]
  simp only [List.not_mem_nil, false_implies, implies_true, iff_true]
  omega

theorem fits_of_parts {parts : List Part} {part : Part} {d : ℕ} (hd : d < maxDepth)
    (hdepth : ∀ n, part.value.depth ≤ n + 1 ↔ ∀ p ∈ parts, p.value.depth ≤ n)
    (hreaches : ∀ reach, reach ∈ part.reaches ↔ ∃ p ∈ parts, reach ∈ p.reaches)
    (h : ∀ p ∈ parts, p.Fits (d + 1)) : part.Fits d := by
  obtain ⟨n, hn⟩ : ∃ n, maxDepth = d + 1 + n := ⟨maxDepth - (d + 1), by omega⟩
  have hle : ∀ k, d + 1 + k ≤ maxDepth ↔ k ≤ n := fun k => by omega
  have hparts : ∀ p ∈ parts, p.value.depth ≤ n ↔ ∀ reach ∈ p.reaches, reach ≤ maxDepth := by
    intro p hp
    rw [← hle]
    exact h p hp
  have hwhole : d + part.value.depth ≤ maxDepth ↔ part.value.depth ≤ n + 1 := by omega
  rw [Part.Fits, hwhole, hdepth]
  constructor
  · intro hall reach hreach
    obtain ⟨p, hp, hmem⟩ := (hreaches reach).mp hreach
    exact (hparts p hp).mp (hall p hp) reach hmem
  · intro hall p hp
    refine (hparts p hp).mpr fun reach hreach => ?_
    exact hall reach ((hreaches reach).mpr ⟨p, hp, hreach⟩)

variable {d : ℕ}

theorem fits_array {items : List Part} (hd : d < maxDepth) (h : ∀ p ∈ items, p.Fits (d + 1)) :
    (Part.array items).Fits d := by
  refine fits_of_parts hd (fun n => ?_) (fun reach => ?_) h
  · simp [Part.array, Value.depth, depths_le_iff]
  · simp [Part.array]

theorem fits_set {items : List Part} (hd : d < maxDepth) (h : ∀ p ∈ items, p.Fits (d + 1)) :
    (Part.set items).Fits d := by
  refine fits_of_parts hd (fun n => ?_) (fun reach => ?_) h
  · simp [Part.set, Value.depth, depths_le_iff]
  · simp [Part.set]

theorem fits_object {properties : List (String × Part)} (hd : d < maxDepth)
    (h : ∀ p ∈ properties, p.2.Fits (d + 1)) : (Part.object properties).Fits d := by
  refine @fits_of_parts (properties.map Prod.snd) _ d hd (fun n => ?_) (fun reach => ?_) ?_
  · simp only [Part.object, Value.depth, Nat.add_le_add_iff_right, depthsOf_le_iff, List.forall_mem_map]
  · simp only [Part.object, List.mem_flatMap]
    constructor
    · rintro ⟨q, hq, hreach⟩
      exact ⟨q.2, List.mem_map_of_mem hq, hreach⟩
    · rintro ⟨p, hp, hreach⟩
      obtain ⟨q, hq, rfl⟩ := List.mem_map.mp hp
      exact ⟨q, hq, hreach⟩
  · intro p hp
    obtain ⟨q, hq, rfl⟩ := List.mem_map.mp hp
    exact h q hq

theorem fits_map {entries : List (Part × Part)} (hd : d < maxDepth)
    (h : ∀ e ∈ entries, e.1.Fits (d + 1) ∧ e.2.Fits (d + 1)) : (Part.map entries).Fits d := by
  refine @fits_of_parts (entries.flatMap fun e => [e.1, e.2]) _ d hd (fun n => ?_) (fun reach => ?_) ?_
  · simp only [Part.map, Value.depth, Nat.add_le_add_iff_right, depthsIn_le_iff, List.forall_mem_map]
    constructor
    · intro hall p hp
      obtain ⟨e, he, hmem⟩ := List.mem_flatMap.mp hp
      rcases List.mem_pair.mp hmem with rfl | rfl
      · exact (hall e he).1
      · exact (hall e he).2
    · intro hall e he
      exact ⟨hall _ (List.mem_flatMap.mpr ⟨e, he, by simp⟩), hall _ (List.mem_flatMap.mpr ⟨e, he, by simp⟩)⟩
  · simp only [Part.map, List.mem_flatMap, List.mem_append]
    constructor
    · rintro ⟨e, he, hkey | hvalue⟩
      · exact ⟨e.1, ⟨e, he, by simp⟩, hkey⟩
      · exact ⟨e.2, ⟨e, he, by simp⟩, hvalue⟩
    · rintro ⟨p, ⟨e, he, hmem⟩, hreach⟩
      rcases List.mem_pair.mp hmem with rfl | rfl
      · exact ⟨e, he, Or.inl hreach⟩
      · exact ⟨e, he, Or.inr hreach⟩
  · intro p hp
    obtain ⟨e, he, hmem⟩ := List.mem_flatMap.mp hp
    rcases List.mem_pair.mp hmem with rfl | rfl
    · exact (h e he).1
    · exact (h e he).2

/-! ### What the reader keeps -/

/-- No value held is larger than the limit, and objects weigh what they expand to. -/
structure Reader.Bounded (s : Reader) : Prop where
  peak : s.peak ≤ maxNodes
  objects : ∀ o, some o ∈ s.objects → o.value.nodes ≤ maxNodes ∧ o.value.nodes ≤ o.weight + 1

/-- What is unfinished is paid for as well. -/
structure Reader.Sound (s : Reader) : Prop extends Reader.Bounded s where
  pos : s.pos ≤ s.data.length
  nodes : s.nodes ≤ maxNodes
  paid : s.around ≤ s.nodes
  starts : s.starts.length = s.objects.length

structure Later (s t : Reader) : Prop where
  data : t.data = s.data
  depth : t.depth = s.depth
  around : t.around = s.around
  pos : s.pos ≤ t.pos
  nodes : s.nodes ≤ t.nodes
  starts : s.starts <+: t.starts

theorem Later.refl (s : Reader) : Later s s :=
  ⟨rfl, rfl, rfl, Nat.le_refl _, Nat.le_refl _, List.prefix_rfl⟩

theorem Later.trans {s t u : Reader} (h : Later s t) (h' : Later t u) : Later s u where
  data := h'.data.trans h.data
  depth := h'.depth.trans h.depth
  around := h'.around.trans h.around
  pos := h.pos.trans h'.pos
  nodes := h.nodes.trans h'.nodes
  starts := h.starts.trans h'.starts

/-- A failure is one of the code's own, and leaves nothing too large behind. -/
def Failed (e : V8Error) (s : Reader) : Prop := e ≠ .unfinished ∧ s.Bounded

/-- The program keeps the reader sound, and ends with what is told. -/
def Steps (prog : Read α) (s : Reader) (post : α → Reader → Prop) : Prop :=
  Yields prog s (fun a t => t.Sound ∧ Later s t ∧ post a t) Failed

variable {α β : Type} {prog : Read α} {f : α → Read β} {s t : Reader} {post : α → Reader → Prop}

theorem Steps.bind {mid : α → Reader → Prop} {post : β → Reader → Prop} (h : Steps prog s mid)
    (hf : ∀ a t, t.Sound → Later s t → mid a t → Steps (f a) t post) : Steps (prog >>= f) s post := by
  refine Yields.bind h fun a t ht => ?_
  obtain ⟨hsound, hlater, hmid⟩ := ht
  exact (hf a t hsound hlater hmid).mono (fun b u hu => ⟨hu.1, hlater.trans hu.2.1, hu.2.2⟩) fun _ _ => id

/-- The same, where what is told in between is said. -/
theorem Steps.through {post : β → Reader → Prop} (mid : α → Reader → Prop) (h : Steps prog s mid)
    (hf : ∀ a t, t.Sound → Later s t → mid a t → Steps (f a) t post) : Steps (prog >>= f) s post := h.bind hf

theorem Steps.mono {post' : α → Reader → Prop} (h : Steps prog s post)
    (hpost : ∀ a t, Later s t → post a t → post' a t) : Steps prog s post' :=
  Yields.mono h (fun a t ht => ⟨ht.1, ht.2.1, hpost a t ht.2.1 ht.2.2⟩) fun _ _ => id

theorem steps_pure {a : α} (hs : s.Sound) (h : post a s) : Steps (pure a) s post :=
  ⟨hs, Later.refl s, h⟩

theorem steps_throw {e : V8Error} (hs : s.Sound) (h : e ≠ .unfinished) : Steps (throw e : Read α) s post :=
  ⟨h, hs.toBounded⟩

theorem steps_malformed {what : String} (hs : s.Sound) : Steps (malformed what : Read α) s post :=
  steps_throw hs nofun

theorem steps_look {g : Reader → α} (hs : s.Sound) (h : post (g s) s) : Steps (look g) s post :=
  ⟨hs, Later.refl s, h⟩

theorem steps_ite {c : Prop} [Decidable c] {p q : Read α} (hp : c → Steps p s post) (hq : ¬ c → Steps q s post) :
    Steps (if c then p else q) s post := yields_ite hp hq

/-- A step that reads on, or fails for want of bytes. -/
theorem steps_attempt {g : Reader → Option (α × Reader)} (hs : s.Sound)
    (h : ∀ a t, g s = some (a, t) → ∃ pos, t = { s with pos } ∧ s.pos ≤ pos ∧ pos ≤ s.data.length ∧
      post a { s with pos }) : Steps (attempt .truncated g) s post := by
  refine yields_attempt (fun _ => ⟨nofun, hs.toBounded⟩) fun a t hrun => ?_
  obtain ⟨pos, rfl, hle, hlen, hpost⟩ := h a t hrun
  exact ⟨{ hs with pos := hlen }, ⟨rfl, rfl, rfl, hle, Nat.le_refl _, List.prefix_rfl⟩, hpost⟩

/-! ### Reading bytes -/

theorem pos_of_varintFrom {data : List UInt8} {turns shift value pos : ℕ} {r : ℕ × ℕ}
    (h : varintFrom data turns shift value pos = some r) : pos < r.2 ∧ r.2 ≤ data.length := by
  induction turns generalizing shift value pos with
  | zero => simp [varintFrom] at h
  | succ turns ih =>
    rw [varintFrom] at h
    cases hbyte : data[pos]? with
    | none => simp [hbyte] at h
    | some byte =>
      have hlt : pos < data.length := (List.getElem?_eq_some_iff.mp hbyte).1
      simp only [hbyte] at h
      split at h
      · cases h
        exact ⟨Nat.lt_succ_self pos, hlt⟩
      · have hrest := ih h
        omega

theorem pos_of_tagFrom {rest : List UInt8} {pos : ℕ} {r : UInt8 × ℕ} (h : tagFrom rest pos = some r) :
    pos < r.2 ∧ r.2 ≤ pos + rest.length := by
  induction rest generalizing pos with
  | nil => simp [tagFrom] at h
  | cons byte rest ih =>
    rw [tagFrom] at h
    split at h
    · have hrest := ih h
      rw [List.length_cons]
      omega
    · cases h
      rw [List.length_cons]
      omega

theorem steps_byte (hs : s.Sound) : Steps byte s fun _ t => s.pos < t.pos := by
  refine steps_attempt hs fun a t hrun => ?_
  obtain ⟨b, hbyte, heq⟩ := Option.map_eq_some_iff.mp hrun
  cases heq
  have hlt : s.pos < s.data.length := (List.getElem?_eq_some_iff.mp hbyte).1
  exact ⟨s.pos + 1, rfl, by omega, hlt, Nat.lt_succ_self _⟩

theorem steps_tag (hs : s.Sound) : Steps tag s fun _ t => s.pos < t.pos := by
  refine steps_attempt hs fun a t hrun => ?_
  obtain ⟨r, htag, heq⟩ := Option.map_eq_some_iff.mp hrun
  cases heq
  have hpos := pos_of_tagFrom htag
  have hlen := hs.pos
  rw [List.length_drop] at hpos
  exact ⟨r.2, rfl, by omega, by omega, hpos.1⟩

theorem steps_peekTag (hs : s.Sound) : Steps peekTag s fun _ t => t = s := by
  refine steps_attempt hs fun a t hrun => ?_
  obtain ⟨r, htag, heq⟩ := Option.map_eq_some_iff.mp hrun
  cases heq
  exact ⟨s.pos, rfl, Nat.le_refl _, hs.pos, rfl⟩

theorem steps_varint (hs : s.Sound) : Steps varint s fun _ t => s.pos < t.pos := by
  refine steps_attempt hs fun a t hrun => ?_
  obtain ⟨r, hvarint, heq⟩ := Option.map_eq_some_iff.mp hrun
  cases heq
  have hpos := pos_of_varintFrom hvarint
  exact ⟨r.2, rfl, by omega, hpos.2, hpos.1⟩

theorem steps_bytes (hs : s.Sound) (len : ℕ) : Steps (bytes len) s fun _ _ => True := by
  refine steps_attempt hs fun a t hrun => ?_
  split at hrun
  · rename_i hle
    cases hrun
    exact ⟨s.pos + len, rfl, by omega, hle, trivial⟩
  · cases hrun

theorem steps_varintIf (hs : s.Sound) (c : Prop) [Decidable c] : Steps (varintIf c) s fun _ _ => True :=
  steps_ite (fun _ => (steps_varint hs).mono fun _ _ _ _ => trivial) fun _ => steps_pure hs trivial

theorem steps_length (hs : s.Sound) : Steps length s fun _ t => s.pos < t.pos := by
  refine (steps_varint hs).bind fun len t ht _ hpos => ?_
  refine (@steps_look _ t (fun _ u => u = t) (fun s => s.data.length - s.pos) ht rfl).bind fun left u hu _ heq => ?_
  subst heq
  exact steps_ite (fun _ => steps_throw hu nofun) fun _ => steps_pure hu hpos

theorem steps_double (hs : s.Sound) : Steps double s fun _ _ => True :=
  (steps_bytes hs 8).bind fun _ _ ht _ _ => steps_pure ht trivial

theorem steps_stringBody (hs : s.Sound) (kind : StringTag) : Steps (stringBody kind) s fun _ _ => True := by
  refine (steps_varint hs).bind fun len t ht _ _ => ?_
  refine (steps_bytes ht len).bind fun raw u hu _ _ => ?_
  cases kind with
  | utf8 => exact steps_pure hu trivial
  | oneByte => exact steps_pure hu trivial
  | twoByte =>
    dsimp only
    split
    · exact steps_malformed hu
    · exact steps_pure hu trivial

theorem steps_string (hs : s.Sound) : Steps string s fun _ _ => True := by
  refine (steps_tag hs).bind fun next t ht _ _ => ?_
  split
  · exact steps_stringBody ht _
  · exact steps_malformed ht

theorem steps_bigint (hs : s.Sound) : Steps bigint s fun value _ => value.depth = 1 ∧ value.nodes = 1 := by
  refine (steps_varint hs).bind fun bitfield t ht _ _ => ?_
  refine (steps_bytes ht _).bind fun digits u hu _ _ => steps_pure hu ?_
  simp [Value.depth, Value.nodes]

/-! ### Objects and counts -/

theorem steps_reserveId (hs : s.Sound) :
    Steps reserveId s fun id t => t.pos = s.pos ∧ t.nodes = s.nodes ∧ t.starts[id]? = some s.nodes := by
  have hobjects : ∀ o, some o ∈ s.objects ++ [none] → some o ∈ s.objects := by
    intro o ho
    simpa using ho
  have hsound : Reader.Sound { s with objects := s.objects ++ [none], starts := s.starts ++ [s.nodes] } :=
    { peak := hs.peak, objects := fun o ho => hs.objects o (hobjects o ho), pos := hs.pos, nodes := hs.nodes,
      paid := hs.paid, starts := by simp [hs.starts] }
  have hlater : Later s { s with objects := s.objects ++ [none], starts := s.starts ++ [s.nodes] } :=
    ⟨rfl, rfl, rfl, Nat.le_refl _, Nat.le_refl _, List.prefix_append _ _⟩
  refine ⟨hsound, hlater, rfl, rfl, ?_⟩
  change (s.starts ++ [s.nodes])[s.objects.length]? = some s.nodes
  rw [← hs.starts, List.getElem?_concat_length]

theorem start_later {id n : ℕ} (h : Later s t) (hstart : s.starts[id]? = some n) : t.starts[id]? = some n := by
  obtain ⟨rest, hrest⟩ := h.starts
  rw [← hrest, List.getElem?_append_left (List.getElem?_eq_some_iff.mp hstart).1]
  exact hstart

/-- What the count grew by pays for the object that is remembered. -/
theorem steps_remember {id n : ℕ} {part : Part} (hs : s.Sound) (hstart : s.starts[id]? = some n)
    (hpaid : n + part.value.nodes ≤ s.nodes + 1) (hsize : part.value.nodes ≤ maxNodes) :
    Steps (remember id part) s fun p t => p = part ∧ t.pos = s.pos ∧ t.nodes = s.nodes := by
  have hget : s.starts.getD id 0 = n := by rw [List.getD_eq_getElem?_getD, hstart, Option.getD_some]
  refine ⟨?_, ⟨rfl, rfl, rfl, Nat.le_refl _, Nat.le_refl _, List.prefix_rfl⟩, rfl, rfl, rfl⟩
  refine { peak := hs.peak, objects := fun o ho => ?_, pos := hs.pos, nodes := hs.nodes, paid := hs.paid, starts := ?_ }
  · rcases List.mem_or_eq_of_mem_set ho with hold | hnew
    · exact hs.objects o hold
    · cases hnew
      refine ⟨hsize, ?_⟩
      change part.value.nodes ≤ max (s.nodes - s.starts.getD id 0) 1 + 1
      rw [hget]
      omega
  · change s.starts.length = (s.objects.set id _).length
    rw [List.length_set, hs.starts]

theorem steps_countNodes (hs : s.Sound) (n : ℕ) :
    Steps (countNodes n) s fun _ t => t.pos = s.pos ∧ t.nodes = s.nodes + n ∧ t.objects = s.objects := by
  unfold countNodes
  rw [Steps, yields_bind, yields_alter, yields_bind, yields_look]
  refine yields_ite (fun _ => ⟨nofun, hs.peak, hs.objects⟩) fun hle => ?_
  have hnodes : saturated (s.nodes + n) = s.nodes + n := by
    unfold saturated maxNodes at *
    dsimp only at hle
    omega
  have hmax : saturated (s.nodes + n) ≤ maxNodes := Nat.not_lt.mp hle
  have hgrown : s.nodes ≤ saturated (s.nodes + n) := by omega
  exact ⟨{ hs with nodes := hmax, paid := hs.paid.trans hgrown },
    ⟨rfl, rfl, rfl, Nat.le_refl _, hgrown, List.prefix_rfl⟩, rfl, hnodes, rfl⟩

theorem steps_hold (hs : s.Sound) {n : ℕ} (h : s.around + n ≤ s.nodes) :
    Steps (hold n) s fun _ t => t.pos = s.pos ∧ t.nodes = s.nodes := by
  have hpeak : max s.peak (s.around + n) ≤ maxNodes := max_le hs.peak (h.trans hs.nodes)
  exact ⟨{ hs with peak := hpeak }, ⟨rfl, rfl, rfl, Nat.le_refl _, Nat.le_refl _, List.prefix_rfl⟩, rfl, rfl⟩

theorem steps_within (hs : s.Sound) {n : ℕ} (h : s.around + n ≤ s.nodes)
    (hprog : Reader.Sound { s with around := s.around + n } →
      Steps prog { s with around := s.around + n } fun a t => post a { t with around := s.around }) :
    Steps (within n prog) s post := by
  unfold within
  rw [Steps, yields_bind, yields_alter, yields_bind]
  refine Yields.mono (hprog { hs with paid := h }) (fun a t ht => ?_) fun _ _ => id
  obtain ⟨hsound, hlater, hpost⟩ := ht
  have haround : t.around = s.around + n := hlater.around
  have hback : t.around - n = s.around := by omega
  have hpaid : s.around ≤ t.nodes := hs.paid.trans hlater.nodes
  rw [yields_bind, yields_alter, yields_pure, hback]
  exact ⟨{ hsound with paid := hpaid },
    ⟨hlater.data, hlater.depth, rfl, hlater.pos, hlater.nodes, hlater.starts⟩, hpost⟩

theorem steps_deeper (hs : s.Sound)
    (hprog : Reader.Sound { s with depth := s.depth + 1 } →
      Steps prog { s with depth := s.depth + 1 } fun a t => post a { t with depth := s.depth }) :
    Steps (deeper prog) s post := by
  unfold deeper
  rw [Steps, yields_bind, yields_alter, yields_bind]
  refine Yields.mono (hprog { hs with }) (fun a t ht => ?_) fun _ _ => id
  obtain ⟨hsound, hlater, hpost⟩ := ht
  have hback : t.depth - 1 = s.depth := by
    rw [hlater.depth]
    exact Nat.add_sub_cancel _ _
  rw [yields_bind, yields_alter, yields_pure, hback]
  exact ⟨{ hsound with }, ⟨hlater.data, rfl, hlater.around, hlater.pos, hlater.nodes, hlater.starts⟩, hpost⟩

/-! ### Loops -/

/-- What each turn keeps, reading on, holds when the end tag is there. -/
theorem steps_untilStop {stop : α → Read Bool} {body : α → Read α} {a : α} (inv : α → Reader → Prop) (hs : s.Sound)
    (hstop : ∀ a t, t.Sound → Steps (stop a) t fun _ u => u = t) (hinv : inv a s)
    (hbody : ∀ a t, t.Sound → Later s t → inv a t → Steps (body a) t fun b u => t.pos < u.pos ∧ inv b u) :
    Steps (untilStop stop body .unfinished (s.data.length + 1) a) s inv := by
  have hrun := @yields_untilStop Reader V8Error α s a Failed stop body .unfinished
    (fun a t => t.Sound ∧ Later s t ∧ inv a t) (fun t => t.data.length - t.pos)
    (fun a t ht => Yields.mono (hstop a t ht.1) (fun _ _ hu => hu.2.2) fun _ _ => id)
    (fun a t ht => Yields.mono (hbody a t ht.1 ht.2.1 ht.2.2)
      (fun b u hu => by
        obtain ⟨hsound, hlater, hpos, hkeep⟩ := hu
        have hlen := hsound.pos
        have hdata := hlater.data
        refine ⟨⟨hsound, ht.2.1.trans hlater, hkeep⟩, ?_⟩
        rw [hdata] at hlen ⊢
        omega) fun _ _ => id)
    (s.data.length + 1) (by omega) ⟨hs, Later.refl s, hinv⟩
  exact hrun.mono (fun a t ht => ht.1) fun _ _ => id

theorem steps_untilTag {stop : UInt8} {body : α → Read α} {a : α} (inv : α → Reader → Prop) (hs : s.Sound)
    (hinv : inv a s)
    (hbody : ∀ a t, t.Sound → Later s t → inv a t → Steps (body a) t fun b u => t.pos < u.pos ∧ inv b u) :
    Steps (untilTag stop body a) s inv := by
  unfold untilTag
  rw [Steps, yields_bind, yields_look]
  refine steps_untilStop inv hs (fun _ t ht => ?_) hinv hbody
  exact (steps_peekTag ht).bind fun _ u hu _ heq => steps_pure hu heq

theorem steps_times {body : α → Read α} {n : ℕ} {a : α} (inv : α → Reader → Prop) (hs : s.Sound) (hinv : inv a s)
    (hbody : ∀ a t, t.Sound → Later s t → inv a t → Steps (body a) t inv) : Steps (times body n a) s inv := by
  refine yields_times (fun a t => t.Sound ∧ Later s t ∧ inv a t) (fun a t ht => ?_) ⟨hs, Later.refl s, hinv⟩
  exact Yields.mono (hbody a t ht.1 ht.2.1 ht.2.2) (fun b u hu => ⟨hu.1, ht.2.1.trans hu.2.1, hu.2.2⟩) fun _ _ => id

/-! ### Values -/

/-- Where the depth is `d`, a value is read on, paid for, and as deep as its parts reach. -/
def Reads (d : ℕ) (value : Read Part) : Prop :=
  ∀ s, s.Sound → s.depth = d →
    Steps value s fun part t => s.pos < t.pos ∧ s.nodes + part.value.nodes ≤ t.nodes ∧ part.Fits d

/-- A value begun and itself counted already. -/
structure Begun (d : ℕ) (s : Reader) : Prop where
  sound : s.Sound
  depth : s.depth = d + 1
  level : d < maxDepth
  room : s.around + 1 ≤ s.nodes

/-- What a value begun at `s` comes to. -/
def Made (d : ℕ) (s : Reader) (part : Part) (t : Reader) : Prop :=
  s.nodes + part.value.nodes ≤ t.nodes + 1 ∧ part.Fits d

theorem nodes_leaf {value : Value} (h : value.nodes = 1) : (Part.leaf value).value.nodes = 1 := h

theorem nodes_array (items : List Part) : (Part.array items).value.nodes = count (items.map Part.value) + 1 := by
  rw [Part.array, Value.nodes]

theorem nodes_set (items : List Part) : (Part.set items).value.nodes = count (items.map Part.value) + 1 := by
  rw [Part.set, Value.nodes]

theorem nodes_object (properties : List (String × Part)) :
    (Part.object properties).value.nodes = countOf (properties.map fun p => (p.1, p.2.value)) + 1 := by
  rw [Part.object, Value.nodes]

theorem nodes_map (entries : List (Part × Part)) :
    (Part.map entries).value.nodes = countIn (entries.map fun e => (e.1.value, e.2.value)) + 1 := by
  rw [Part.map, Value.nodes]

theorem made_leaf {value : Value} (h : Begun d s) (hlater : Later s t) (hvalue : value.depth = 1 ∧ value.nodes = 1) :
    Made d s (.leaf value) t := by
  refine ⟨?_, fits_leaf h.level hvalue.1⟩
  rw [nodes_leaf hvalue.2]
  exact Nat.add_le_add_right hlater.nodes 1

theorem Begun.later (h : Begun d s) (hlater : Later s t) (ht : t.Sound) : Begun d t where
  sound := ht
  depth := hlater.depth.trans h.depth
  level := h.level
  room := by rw [hlater.around]; exact h.room.trans hlater.nodes

theorem Made.of_later {u : Reader} {part : Part} (hlater : Later s t) (h : Made d t part u) : Made d s part u :=
  ⟨(Nat.add_le_add_right hlater.nodes _).trans h.1, h.2⟩

/-- What is begun may go on around a part that is paid for. -/
theorem Begun.room_within (h : Begun d s) (hlater : Later s t) {n : ℕ} (hpaid : s.nodes + n ≤ t.nodes + 1) :
    t.around + n ≤ t.nodes := by
  have hroom := h.room
  rw [hlater.around]
  omega

/-- A value that is made is remembered and handed on. -/
theorem steps_finish {id : ℕ} {part : Part} (h : Begun d s) (hstart : t.starts[id]? = some s.nodes) (ht : t.Sound)
    (hmade : Made d s part t) : Steps (remember id part) t (Made d s) := by
  have hroom := h.room
  have hnodes := ht.nodes
  have hpaid := hmade.1
  refine (steps_remember ht hstart hpaid (by omega)).mono fun p u hlater hp => ?_
  obtain ⟨rfl, -, hsame⟩ := hp
  exact ⟨by rw [hsame]; exact hpaid, hmade.2⟩

theorem steps_propertyKey (display : Float → String) {value : Read Part} (hvalue : Reads d value) (hs : s.Sound)
    (hd : s.depth = d) : Steps (propertyKey display value) s fun _ t => s.pos < t.pos := by
  refine (hvalue s hs hd).bind fun key t ht _ hkey => ?_
  split
  · exact steps_pure ht hkey.1
  · exact steps_malformed ht

theorem steps_reference (h : Begun d s) : Steps reference s (Made d s) := by
  refine (steps_varint h.sound).bind fun id t ht hlater _ => ?_
  refine (@steps_look _ t (fun o u => u = t ∧ o = t.objects[id]?) _ ht ⟨rfl, rfl⟩).bind fun object u hu _ hlook => ?_
  obtain ⟨rfl, rfl⟩ := hlook
  split
  · rename_i object hobject
    have hmem : some object ∈ u.objects := List.mem_of_getElem? hobject
    have hsize := (ht.objects object hmem).2
    refine (steps_countNodes ht object.weight).bind fun _ v hv hlater' hcount => ?_
    refine (@steps_look _ v (fun n w => w = v ∧ n = d + 1) _ hv ?_).bind fun n w hw hlater'' hlook => ?_
    · exact ⟨rfl, hlater'.depth.trans (hlater.depth.trans h.depth)⟩
    obtain ⟨rfl, rfl⟩ := hlook
    have hnodes := hlater.nodes
    refine steps_pure hw ⟨?_, ?_⟩
    · rw [hcount.2.1]
      dsimp only
      omega
    · simp only [Part.Fits, List.mem_singleton, forall_eq, Nat.add_sub_cancel]
  · exact steps_malformed ht
  · exact steps_malformed ht

theorem steps_boxed {body : Read Value} (h : Begun d s)
    (hbody : ∀ t, t.Sound → Steps body t fun value _ => value.depth = 1 ∧ value.nodes = 1) :
    Steps (boxed body) s (Made d s) := by
  refine (steps_reserveId h.sound).bind fun id t ht hlater hid => ?_
  refine (hbody t ht).bind fun value u hu hlater' hvalue => ?_
  exact steps_finish h (start_later hlater' hid.2.2) hu (made_leaf h (hlater.trans hlater') hvalue)

theorem steps_object (display : Float → String) {value : Read Part} (hvalue : Reads (d + 1) value) (h : Begun d s) :
    Steps (object display value) s (Made d s) := by
  refine (steps_reserveId h.sound).bind fun id t ht hlater hid => ?_
  refine Steps.through (fun properties u => s.nodes + (Part.object properties).value.nodes ≤ u.nodes + 1 ∧
    ∀ p ∈ properties, p.2.Fits (d + 1)) ?_ fun properties u hu hlater' hinv => ?_
  · refine steps_untilTag _ ht ⟨?_, nofun⟩ fun properties u hu hlater' hinv => ?_
    · rw [nodes_object]
      exact Nat.add_le_add_right hlater.nodes 1
    obtain ⟨hpaid, hfits⟩ := hinv
    have hdepth := ((h.later hlater ht).later hlater' hu).depth
    refine steps_within hu (h.room_within (hlater.trans hlater') hpaid) fun hin => ?_
    refine (steps_propertyKey display hvalue hin hdepth).bind fun key v hv hlater'' hpos => ?_
    refine (hvalue v hv (hlater''.depth.trans hdepth)).bind fun part w hw hlast hpart => ?_
    obtain ⟨hpos', hnodes, hfit⟩ := hpart
    have hgrown : u.nodes ≤ v.nodes := hlater''.nodes
    refine steps_pure hw ⟨hpos.trans hpos', ?_, ?_⟩
    · rw [nodes_object] at hpaid ⊢
      simp only [List.map_append, List.map_cons, List.map_nil, countOf_concat]
      omega
    · exact List.forall_mem_append.mpr ⟨hfits, List.forall_mem_singleton.mpr hfit⟩
  refine (steps_tag hu).bind fun _ v hv hlater'' _ => ?_
  refine (steps_varint hv).bind fun _ w hw hlast _ => ?_
  have hrest := hlater''.trans hlast
  exact steps_finish h (start_later (hlater'.trans hrest) hid.2.2) hw
    ⟨hinv.1.trans (Nat.add_le_add_right hrest.nodes 1), fits_object h.level hinv.2⟩

theorem steps_set {value : Read Part} (hvalue : Reads (d + 1) value) (h : Begun d s) :
    Steps (set value) s (Made d s) := by
  refine (steps_reserveId h.sound).bind fun id t ht hlater hid => ?_
  refine Steps.through (fun items u => s.nodes + (Part.set items).value.nodes ≤ u.nodes + 1 ∧
    ∀ p ∈ items, p.Fits (d + 1)) ?_ fun items u hu hlater' hinv => ?_
  · refine steps_untilTag _ ht ⟨?_, nofun⟩ fun items u hu hlater' hinv => ?_
    · rw [nodes_set]
      exact Nat.add_le_add_right hlater.nodes 1
    obtain ⟨hpaid, hfits⟩ := hinv
    have hdepth := ((h.later hlater ht).later hlater' hu).depth
    refine steps_within hu (h.room_within (hlater.trans hlater') hpaid) fun hin => ?_
    refine (hvalue _ hin hdepth).bind fun part w hw hlater'' hpart => ?_
    obtain ⟨hpos, hnodes, hfit⟩ := hpart
    have hgrown : u.nodes + part.value.nodes ≤ w.nodes := hnodes
    refine steps_pure hw ⟨hpos, ?_, ?_⟩
    · rw [nodes_set] at hpaid ⊢
      simp only [List.map_append, List.map_cons, List.map_nil, count_concat]
      omega
    · exact List.forall_mem_append.mpr ⟨hfits, List.forall_mem_singleton.mpr hfit⟩
  refine (steps_tag hu).bind fun _ v hv hlater'' _ => ?_
  refine (steps_varint hv).bind fun _ w hw hlast _ => ?_
  have hrest := hlater''.trans hlast
  exact steps_finish h (start_later (hlater'.trans hrest) hid.2.2) hw
    ⟨hinv.1.trans (Nat.add_le_add_right hrest.nodes 1), fits_set h.level hinv.2⟩

theorem steps_map {value : Read Part} (hvalue : Reads (d + 1) value) (h : Begun d s) :
    Steps (map value) s (Made d s) := by
  refine (steps_reserveId h.sound).bind fun id t ht hlater hid => ?_
  refine Steps.through (fun entries u => s.nodes + (Part.map entries).value.nodes ≤ u.nodes + 1 ∧
    ∀ e ∈ entries, e.1.Fits (d + 1) ∧ e.2.Fits (d + 1)) ?_ fun entries u hu hlater' hinv => ?_
  · refine steps_untilTag _ ht ⟨?_, nofun⟩ fun entries u hu hlater' hinv => ?_
    · rw [nodes_map]
      exact Nat.add_le_add_right hlater.nodes 1
    obtain ⟨hpaid, hfits⟩ := hinv
    have hdepth := ((h.later hlater ht).later hlater' hu).depth
    have hroom := h.room_within (hlater.trans hlater') hpaid
    refine steps_within hu hroom fun hin => ?_
    refine (hvalue _ hin hdepth).bind fun key v hv hlater'' hkey => ?_
    have haround : v.around = u.around + (Part.map entries).value.nodes := hlater''.around
    have hkeyNodes : u.nodes + key.value.nodes ≤ v.nodes := hkey.2.1
    refine Steps.through (fun part w => v.pos < w.pos ∧ v.nodes + part.value.nodes ≤ w.nodes ∧ part.Fits (d + 1))
      (steps_within hv (by omega) fun hin' => ?_) fun part w hw hlast hpart => ?_
    · exact hvalue _ hin' (hlater''.depth.trans hdepth)
    obtain ⟨hpos, hnodes, hfit⟩ := hpart
    refine steps_pure hw ⟨Nat.lt_trans hkey.1 hpos, ?_, ?_⟩
    · rw [nodes_map] at hpaid ⊢
      simp only [List.map_append, List.map_cons, List.map_nil, countIn_concat]
      omega
    · exact List.forall_mem_append.mpr ⟨hfits, List.forall_mem_singleton.mpr ⟨hkey.2.2, hfit⟩⟩
  refine (steps_tag hu).bind fun _ v hv hlater'' _ => ?_
  refine (steps_varint hv).bind fun _ w hw hlast _ => ?_
  have hrest := hlater''.trans hlast
  exact steps_finish h (start_later (hlater'.trans hrest) hid.2.2) hw
    ⟨hinv.1.trans (Nat.add_le_add_right hrest.nodes 1), fits_map h.level hinv.2⟩

/-- Both kinds of array end alike. -/
theorem steps_finishArray {id : ℕ} {items : List Part} (h : Begun d s)
    (hstart : t.starts[id]? = some s.nodes) (ht : t.Sound)
    (hpaid : s.nodes + (Part.array items).value.nodes ≤ t.nodes + 1) (hfits : ∀ p ∈ items, p.Fits (d + 1)) :
    Steps (do
      let _ ← tag
      let _ ← varint
      let _ ← varint
      remember id (.array items)) t (Made d s) := by
  refine (steps_tag ht).bind fun _ u hu hlater' _ => ?_
  refine (steps_varint hu).bind fun _ v hv hlater'' _ => ?_
  refine (steps_varint hv).bind fun _ w hw hlast _ => ?_
  have hrest := hlater'.trans (hlater''.trans hlast)
  exact steps_finish h (start_later hrest hstart) hw
    ⟨hpaid.trans (Nat.add_le_add_right hrest.nodes 1), fits_array h.level hfits⟩

theorem steps_denseArray (display : Float → String) {value : Read Part} (hvalue : Reads (d + 1) value)
    (h : Begun d s) : Steps (denseArray display value) s (Made d s) := by
  refine (steps_reserveId h.sound).bind fun id t ht hlater hid => ?_
  refine (steps_length ht).bind fun len u hu hlater' _ => ?_
  have htaken := hlater.trans hlater'
  refine Steps.through (fun items v => s.nodes + (Part.array items).value.nodes ≤ v.nodes + 1 ∧
    ∀ p ∈ items, p.Fits (d + 1)) ?_ fun items v hv hlater'' hinv => ?_
  · refine steps_times _ hu ⟨?_, nofun⟩ fun items v hv hlater'' hinv => ?_
    · rw [nodes_array]
      exact Nat.add_le_add_right htaken.nodes 1
    obtain ⟨hpaid, hfits⟩ := hinv
    have hdepth := ((h.later htaken hu).later hlater'' hv).depth
    refine steps_within hv (h.room_within (htaken.trans hlater'') hpaid) fun hin => ?_
    refine (hvalue _ hin hdepth).bind fun part w hw hlast hpart => ?_
    obtain ⟨-, hnodes, hfit⟩ := hpart
    have hgrown : v.nodes + part.value.nodes ≤ w.nodes := hnodes
    refine steps_pure hw ⟨?_, ?_⟩
    · rw [nodes_array] at hpaid ⊢
      simp only [List.map_append, List.map_cons, List.map_nil, count_concat]
      omega
    · exact List.forall_mem_append.mpr ⟨hfits, List.forall_mem_singleton.mpr hfit⟩
  have hread := htaken.trans hlater''
  refine Steps.through (fun _ _ => True) ?_ fun _ w hw hlast _ => ?_
  · refine steps_untilTag _ hv trivial fun _ w hw hlast _ => ?_
    have hpaid : s.nodes + (Part.array items).value.nodes ≤ w.nodes + 1 :=
      hinv.1.trans (Nat.add_le_add_right hlast.nodes 1)
    have hdepth := ((h.later hread hv).later hlast hw).depth
    refine steps_within hw (h.room_within (hread.trans hlast) hpaid) fun hin => ?_
    refine (steps_propertyKey display hvalue hin hdepth).bind fun key x hx hlater4 hpos => ?_
    refine (hvalue x hx (hlater4.depth.trans hdepth)).bind fun part y hy _ hpart => ?_
    exact steps_pure hy ⟨hpos.trans hpart.1, trivial⟩
  exact steps_finishArray h (start_later (hlater'.trans (hlater''.trans hlast)) hid.2.2) hw
    (hinv.1.trans (Nat.add_le_add_right hlast.nodes 1)) hinv.2

/-- Every slot is paid for before there is one, so what takes its place only adds. -/
theorem steps_sparseArray (display : Float → String) {value : Read Part} (hvalue : Reads (d + 1) value)
    (h : Begun d s) : Steps (sparseArray display value) s (Made d s) := by
  refine (steps_reserveId h.sound).bind fun id t ht hlater hid => ?_
  refine (steps_varint ht).bind fun len u hu hlater' _ => ?_
  refine steps_ite (fun _ => steps_malformed hu) fun _ => ?_
  refine (steps_countNodes hu len).bind fun _ v hv hlater'' hcount => ?_
  have htaken := hlater.trans (hlater'.trans hlater'')
  refine (@steps_look _ v (fun n w => w = v ∧ n = d + 1) _ hv ⟨rfl, htaken.depth.trans h.depth⟩).bind
    fun n w hw hlast hlook => ?_
  obtain ⟨rfl, rfl⟩ := hlook
  let hole : Part := { value := .undefined, reaches := [d + 1 + 1] }
  have hholes : ∀ p ∈ List.replicate len hole, p.Fits (d + 1) := by
    intro p hp
    rw [List.eq_of_mem_replicate hp]
    simp only [Part.Fits, hole, Value.depth, List.mem_singleton, forall_eq]
  have hnodes : (Part.array (List.replicate len hole)).value.nodes = len + 1 := by
    rw [nodes_array, List.map_replicate, count_replicate]
  have hpaid : s.nodes + (Part.array (List.replicate len hole)).value.nodes ≤ w.nodes + 1 := by
    have hgrown := (hlater.trans hlater').nodes
    rw [hnodes, hcount.2.1]
    omega
  refine (steps_hold hw (h.room_within htaken hpaid)).bind fun _ x hx hlater4 hheld => ?_
  have hheldLater := htaken.trans hlater4
  refine Steps.through (fun items y => s.nodes + (Part.array items).value.nodes ≤ y.nodes + 1 ∧
    ∀ p ∈ items, p.Fits (d + 1)) ?_ fun items y hy hlater5 hinv => ?_
  · refine steps_untilTag _ hx ⟨?_, hholes⟩ fun items y hy hlater5 hinv => ?_
    · rw [hheld.2]
      exact hpaid
    obtain ⟨hpaid', hfits⟩ := hinv
    have hdepth := ((h.later hheldLater hx).later hlater5 hy).depth
    refine steps_within hy (h.room_within (hheldLater.trans hlater5) hpaid') fun hin => ?_
    refine (steps_propertyKey display hvalue hin hdepth).bind fun key z hz hlater6 hpos => ?_
    refine (hvalue z hz (hlater6.depth.trans hdepth)).bind fun part a ha hlater7 hpart => ?_
    obtain ⟨hpos', hgrown, hfit⟩ := hpart
    have hread : y.nodes ≤ z.nodes := hlater6.nodes
    rw [nodes_array] at hpaid'
    split
    · rename_i i _
      refine steps_pure ha ⟨hpos.trans hpos', ?_, ?_⟩
      · have hset := count_set_le (items.map Part.value) i part.value
        rw [nodes_array, List.map_set]
        dsimp only
        omega
      · intro p hp
        rcases List.mem_or_eq_of_mem_set hp with hold | rfl
        · exact hfits p hold
        · exact hfit
    · refine steps_pure ha ⟨hpos.trans hpos', ?_, hfits⟩
      rw [nodes_array]
      dsimp only
      omega
  have hstart := start_later (hlater'.trans (hlater''.trans (hlater4.trans hlater5))) hid.2.2
  exact steps_finishArray h hstart hy hinv.1 hinv.2

theorem steps_view (buffer : List UInt8) (h : Begun d s) : Steps (view buffer) s (Made d s) := by
  refine (steps_reserveId h.sound).bind fun id t ht hlater hid => ?_
  refine (steps_byte ht).bind fun _ u hu hlater' _ => ?_
  refine (steps_varint hu).bind fun offset v hv hlater'' _ => ?_
  refine (steps_varint hv).bind fun len w hw hlast _ => ?_
  refine (@steps_look _ w (fun _ x => x = w) Reader.version hw rfl).bind fun version x hx _ heq => ?_
  subst heq
  refine (steps_varintIf hx _).bind fun _ y hy hlater4 _ => ?_
  have hread := hlater'.trans (hlater''.trans (hlast.trans hlater4))
  refine steps_ite (fun _ => ?_) fun _ => steps_malformed hy
  refine steps_finish h (start_later hread hid.2.2) hy (made_leaf h (hlater.trans hread) ?_)
  simp [Value.depth, Value.nodes]

theorem steps_arrayBuffer (resizable : Bool) (h : Begun d s) : Steps (arrayBuffer resizable) s (Made d s) := by
  refine (steps_reserveId h.sound).bind fun id t ht hlater hid => ?_
  refine (steps_length ht).bind fun len u hu hlater' _ => ?_
  refine (steps_varintIf hu _).bind fun _ v hv hlater'' _ => ?_
  refine (steps_bytes hv len).bind fun buffer w hw hlast _ => ?_
  have hread := hlater'.trans (hlater''.trans hlast)
  have hbuffer : (Value.bytes buffer).depth = 1 ∧ (Value.bytes buffer).nodes = 1 := by simp [Value.depth, Value.nodes]
  refine (steps_finish h (start_later hread hid.2.2) hw (made_leaf h (hlater.trans hread) hbuffer)).bind
    fun _ x hx hlater4 _ => ?_
  have hdone := hlater.trans (hread.trans hlater4)
  refine (@steps_look _ x (fun _ y => y = x) _ hx rfl).bind fun next y hy _ heq => ?_
  subst heq
  refine steps_ite (fun _ => ?_) fun _ => steps_pure hy (made_leaf h hdone hbuffer)
  refine (steps_tag hy).bind fun _ z hz hlater5 _ => ?_
  have hbegun := h.later (hdone.trans hlater5) hz
  exact (steps_view buffer hbegun).mono fun part _ _ hmade => hmade.of_later (hdone.trans hlater5)

theorem steps_valueTag (hs : s.Sound) : Steps valueTag s fun _ t => s.pos < t.pos := by
  refine (steps_tag hs).bind fun first t ht _ hpos => ?_
  refine (@steps_look _ t (fun len u => u = t ∧ len = t.data.length) _ ht ⟨rfl, rfl⟩).bind fun len u hu _ hlook => ?_
  obtain ⟨rfl, rfl⟩ := hlook
  refine steps_untilStop (fun _ v => s.pos < v.pos) hu (fun next v hv => steps_pure hv rfl) hpos
    fun next v hv _ hbefore => ?_
  refine (steps_varint hv).bind fun _ w hw _ hvarint => ?_
  exact (steps_tag hw).mono fun _ x _ htag => ⟨Nat.lt_trans hvarint htag, by omega⟩

theorem steps_valueInner (display : Float → String) {value : Read Part} (hvalue : Reads (d + 1) value)
    (h : Begun d s) : Steps (valueInner display value) s fun part t => s.pos < t.pos ∧ Made d s part t := by
  refine (steps_valueTag h.sound).bind fun first t ht hlater hpos => ?_
  have hbegun := h.later hlater ht
  have hmade : ∀ prog : Read Part, Steps prog t (Made d t) →
      Steps prog t fun part u => s.pos < u.pos ∧ Made d s part u := by
    intro prog hprog
    exact hprog.mono fun part u hlater' hpart => ⟨Nat.lt_of_lt_of_le hpos hlater'.pos, hpart.of_later hlater⟩
  have hone : ∀ v : Value, v.depth = 1 ∧ v.nodes = 1 → Steps (pure (Part.leaf v)) t (Made d t) :=
    fun v hv => steps_pure ht (made_leaf hbegun (Later.refl t) hv)
  have hthen : ∀ {γ : Type} (body : Read γ) (g : γ → Value), Steps body t (fun _ _ => True) →
      (∀ a, (g a).depth = 1 ∧ (g a).nodes = 1) → Steps (do let a ← body; pure (Part.leaf (g a))) t (Made d t) := by
    intro γ body g hbody hg
    exact hbody.bind fun a u hu hlater' _ => steps_pure hu (made_leaf hbegun hlater' (hg a))
  have hvarint : Steps varint t fun _ _ => True := (steps_varint ht).mono fun _ _ _ _ => trivial
  split
  · exact steps_throw ht nofun
  · exact hmade _ (hone _ (by simp [Value.depth, Value.nodes]))
  · exact hmade _ (hone _ (by simp [Value.depth, Value.nodes]))
  · exact hmade _ (hone _ (by simp [Value.depth, Value.nodes]))
  · exact hmade _ (hthen varint _ hvarint fun _ => by simp [Value.depth, Value.nodes])
  · exact hmade _ (hthen varint _ hvarint fun _ => by simp [Value.depth, Value.nodes])
  · exact hmade _ (hthen double _ (steps_double ht) fun _ => by simp [Value.depth, Value.nodes])
  · refine hmade _ ((steps_bigint ht).bind fun n u hu hlater' hn => ?_)
    exact steps_pure hu (made_leaf hbegun hlater' hn)
  · exact hmade _ (hthen _ _ (steps_stringBody ht _) fun _ => by simp [Value.depth, Value.nodes])
  · exact hmade _ (steps_reference hbegun)
  · exact hmade _ (steps_object display hvalue hbegun)
  · exact hmade _ (steps_denseArray display hvalue hbegun)
  · exact hmade _ (steps_sparseArray display hvalue hbegun)
  · refine hmade _ (steps_boxed hbegun fun u hu => (steps_double hu).bind fun _ v hv _ _ => steps_pure hv ?_)
    simp [Value.depth, Value.nodes]
  · refine hmade _ (steps_boxed hbegun fun u hu => steps_pure hu ?_)
    simp [Value.depth, Value.nodes]
  · refine hmade _ (steps_boxed hbegun fun u hu => (steps_double hu).bind fun _ v hv _ _ => steps_pure hv ?_)
    simp [Value.depth, Value.nodes]
  · exact hmade _ (steps_boxed hbegun fun u hu => steps_bigint hu)
  · refine hmade _ (steps_boxed hbegun fun u hu => (steps_string hu).bind fun _ v hv _ _ => steps_pure hv ?_)
    simp [Value.depth, Value.nodes]
  · refine hmade _ (steps_boxed hbegun fun u hu => (steps_string hu).bind fun _ v hv _ _ => ?_)
    refine (steps_varint hv).bind fun _ w hw _ _ => steps_pure hw ?_
    simp [Value.depth, Value.nodes]
  · exact hmade _ (steps_map hvalue hbegun)
  · exact hmade _ (steps_set hvalue hbegun)
  · exact hmade _ (steps_arrayBuffer _ hbegun)

/-- With levels enough for the depth that is left, every value is read so. -/
theorem reads_value (display : Float → String) (levels d : ℕ) : Reads d (value display levels) := by
  induction levels generalizing d with
  | zero => exact fun s hs _ => steps_throw hs nofun
  | succ levels ih =>
    intro s hs hdepth
    rw [value]
    refine (@steps_look _ s (fun n t => t = s ∧ n = d) _ hs ⟨rfl, hdepth⟩).bind fun n t ht _ hlook => ?_
    obtain ⟨rfl, rfl⟩ := hlook
    refine steps_ite (fun _ => steps_throw ht nofun) fun hlevel => ?_
    have hlevel : n < maxDepth := Nat.not_le.mp hlevel
    refine steps_deeper ht fun hdeeper => ?_
    refine (steps_countNodes hdeeper 1).bind fun _ u hu hlater hcount => ?_
    have hcounted : u.nodes = t.nodes + 1 := hcount.2.1
    have hbegun : Begun n u :=
      { sound := hu, depth := hlater.depth.trans (congrArg (fun depth => depth + 1) hdepth), level := hlevel,
        room := by rw [hcounted, hlater.around]; exact Nat.add_le_add_right ht.paid 1 }
    refine (steps_valueInner display (ih (n + 1)) hbegun).bind fun part v hv hlater' hpart => ?_
    obtain ⟨hpos, hpaid, hfits⟩ := hpart
    have haround : v.around = t.around := (hlater.trans hlater').around
    have hbefore := ht.paid
    refine (steps_hold hv (by omega)).bind fun _ w hw hlater'' hheld => ?_
    refine steps_pure hw ⟨?_, ?_, hfits⟩
    · rw [hheld.1]
      exact Nat.lt_of_le_of_lt hlater.pos hpos
    · rw [hheld.2]
      omega

/-! ### Whole values -/

theorem sound_start (data : List UInt8) : (start data).Sound where
  peak := Nat.zero_le _
  objects := nofun
  pos := Nat.zero_le _
  nodes := Nat.zero_le _
  paid := Nat.le_refl _
  starts := rfl

theorem steps_deserialize (display : Float → String) (data : List UInt8) :
    Steps (deserializeParts display) (start data) fun part t => part.value.nodes ≤ t.nodes ∧ part.Fits 0 := by
  refine (steps_tag (sound_start data)).bind fun first s hs hlater _ => ?_
  refine steps_ite (fun _ => steps_malformed hs) fun _ => ?_
  refine (steps_varint hs).bind fun version t ht hlater' _ => ?_
  have hversion : Reader.Sound { t with version } := { ht with }
  refine Steps.through (fun _ u => u = { t with version }) ?_ fun _ u hu _ heq => ?_
  · exact ⟨hversion, ⟨rfl, rfl, rfl, Nat.le_refl _, Nat.le_refl _, List.prefix_rfl⟩, rfl⟩
  subst heq
  refine (reads_value display _ 0 _ hu ?_).mono fun part u _ hpart => ?_
  · exact hlater'.depth.trans hlater.depth
  · exact ⟨Nat.le_of_add_left_le hpart.2.1, hpart.2.2⟩

/-- However it ends, reading ends by itself, with nothing held on the way that is larger than the limit. -/
theorem deserialize_bounded (display : Float → String) (data : List UInt8) :
    (read display data).1 ≠ .error .unfinished ∧ (read display data).2.peak ≤ maxNodes ∧
    (∀ o, some o ∈ (read display data).2.objects →
      o.value.nodes ≤ maxNodes ∧ o.value.nodes - 1 ≤ o.weight) ∧
    ∀ v, deserialize display data = .ok v → v.nodes ≤ maxNodes := by
  have hsteps := steps_deserialize display data
  have hobjects : ∀ s : Reader, s.Bounded → ∀ o, some o ∈ s.objects →
      o.value.nodes ≤ maxNodes ∧ o.value.nodes - 1 ≤ o.weight := by
    intro s hs o ho
    obtain ⟨hsize, hweight⟩ := hs.objects o ho
    exact ⟨hsize, Nat.sub_le_of_le_add hweight⟩
  unfold Steps Yields at hsteps
  unfold deserialize read
  rcases hrun : (deserializeParts display).run (start data) with ⟨result, s⟩
  simp only [hrun] at hsteps ⊢
  cases result with
  | ok part =>
    obtain ⟨hsound, -, hnodes, -⟩ := hsteps
    refine ⟨nofun, hsound.peak, hobjects s hsound.toBounded, fun v hv => ?_⟩
    cases hv
    exact hnodes.trans hsound.nodes
  | error e =>
    refine ⟨fun heq => hsteps.1 ?_, hsteps.2.peak, hobjects s hsteps.2, nofun⟩
    cases heq
    rfl

/-- How deep the references that stand in the value reach, and the holes of sparse arrays. -/
def reaches (display : Float → String) (data : List UInt8) : List ℕ :=
  match (read display data).1 with
  | .ok part => part.reaches
  | .error _ => []

/-- Only what is put in without being read takes a value beyond the limit. -/
theorem depth_le_maxDepth_iff (display : Float → String) (data : List UInt8) (v : Value)
    (h : deserialize display data = .ok v) : v.depth ≤ maxDepth ↔ ∀ reach ∈ reaches display data, reach ≤ maxDepth := by
  have hsteps := steps_deserialize display data
  unfold Steps Yields at hsteps
  unfold deserialize at h
  unfold reaches
  unfold read at h ⊢
  rcases hrun : (deserializeParts display).run (start data) with ⟨result, s⟩
  simp only [hrun] at hsteps h ⊢
  cases result with
  | ok part =>
    obtain ⟨-, -, -, hfits⟩ := hsteps
    cases h
    rw [Part.Fits, Nat.zero_add] at hfits
    exact hfits
  | error e => cases h

/-- `[[null], [^1]]` -/
def referring : List UInt8 := [0xff, 15, 65, 2, 65, 1, 48, 36, 0, 1, 65, 1, 94, 1, 36, 0, 1, 36, 0, 2]

theorem referring_within : ∃ v, deserialize Float.toString referring = .ok v ∧ v.depth ≤ maxDepth := by
  have hok : (deserialize Float.toString referring).toOption.isSome = true := by decide +kernel
  have hreaches : reaches Float.toString referring = [4] := by decide +kernel
  cases hrun : deserialize Float.toString referring with
  | error e =>
    rw [hrun] at hok
    cases hok
  | ok v =>
    refine ⟨v, rfl, (depth_le_maxDepth_iff Float.toString referring v hrun).mpr ?_⟩
    rw [hreaches]
    decide

/-- Dense arrays of one element, one inside the other around `inner`. -/
def nested (levels : ℕ) (inner : List UInt8) : List UInt8 :=
  (List.replicate levels [65, 1]).flatten ++ inner ++ (List.replicate levels [36, 0, 1]).flatten

section nesting

variable {s t : Reader} {byte : UInt8} {rest : List UInt8} {fail : V8Error → Reader → Prop}

/-- The bytes that are not read yet. -/
def Reader.ahead (s : Reader) : List UInt8 := s.data.drop s.pos

def Reader.advance (s : Reader) (bytes : ℕ) : Reader := { s with pos := s.pos + bytes }

theorem Reader.ahead_advance (s : Reader) (n : ℕ) : (s.advance n).ahead = s.ahead.drop n := by
  rw [ahead, ahead, List.drop_drop]
  rfl

theorem yields_tag {post : UInt8 → Reader → Prop} (h : s.ahead = byte :: rest) (hbyte : byte ≠ paddingTag)
    (hpost : post byte (s.advance 1)) : Yields tag s post fail := by
  have hfound : tagFrom (s.data.drop s.pos) s.pos = some (byte, s.pos + 1) := by
    rw [Reader.ahead] at h
    rw [h, tagFrom, if_neg hbyte]
  refine yields_attempt (fun hnone => ?_) fun a t hsome => ?_
  · simp [hfound] at hnone
  · rw [hfound] at hsome
    cases hsome
    exact hpost

theorem yields_peekTag {post : UInt8 → Reader → Prop} (h : s.ahead = byte :: rest) (hbyte : byte ≠ paddingTag)
    (hpost : post byte s) : Yields peekTag s post fail := by
  have hfound : tagFrom (s.data.drop s.pos) s.pos = some (byte, s.pos + 1) := by
    rw [Reader.ahead] at h
    rw [h, tagFrom, if_neg hbyte]
  refine yields_attempt (fun hnone => ?_) fun a t hsome => ?_
  · simp [hfound] at hnone
  · rw [hfound] at hsome
    cases hsome
    exact hpost

theorem yields_varint {post : ℕ → Reader → Prop} {n : ℕ} (h : s.ahead = byte :: rest) (hlast : byte &&& 0x80 = 0)
    (hn : 0 ||| ((byte &&& 0x7f).toNat <<< 0) % 2 ^ 64 = n) (hpost : post n (s.advance 1)) :
    Yields varint s post fail := by
  have hfound : Chromium.varint s.data s.pos = some (n, s.pos + 1) := by
    rw [Reader.ahead] at h
    have hget : s.data[s.pos]? = some byte := by rw [← List.head?_drop, h, List.head?_cons]
    rw [Chromium.varint, varintFrom, hget]
    dsimp only
    rw [if_pos hlast, hn]
  refine yields_attempt (fun hnone => ?_) fun a t hsome => ?_
  · simp [hfound] at hnone
  · rw [hfound] at hsome
    cases hsome
    exact hpost


theorem yields_valueTag {post : UInt8 → Reader → Prop} (h : s.ahead = byte :: rest) (hbyte : byte ≠ paddingTag)
    (hcount : byte ≠ verifyObjectCount) (hpost : post byte (s.advance 1)) : Yields valueTag s post fail := by
  rw [valueTag, yields_bind]
  refine yields_tag h hbyte ?_
  rw [yields_bind, yields_look, untilStop, yields_bind, yields_pure]
  have hstop : (byte != verifyObjectCount) = true := by simpa using hcount
  rw [hstop, if_pos rfl, yields_pure]
  exact hpost

/-- Every object stays under its id. -/
def KeepsObjects (s t : Reader) : Prop := ∀ (i : ℕ) (o : Option Object), s.objects[i]? = some o → t.objects[i]? = some o

theorem KeepsObjects.trans {u : Reader} (h : KeepsObjects s t) (h' : KeepsObjects t u) : KeepsObjects s u :=
  fun i o ho => h' i o (h i o ho)

/-- A value of that depth was read, up to where `rest` begins. -/
structure Took (s t : Reader) (part : Part) (rest : List UInt8) (depth nodes : ℕ) : Prop where
  data : t.data = s.data
  ahead : t.ahead = rest
  level : t.depth = s.depth
  nodes : t.nodes ≤ s.nodes + nodes
  keeps : KeepsObjects s t
  depth : part.value.depth = depth

theorem saturated_of_le {n : ℕ} (h : n ≤ maxNodes) : saturated n = n := by
  rw [saturated]
  exact min_eq_left (h.trans (by decide))

theorem yields_countNodes {n : ℕ} {post : Unit → Reader → Prop} (h : s.nodes + n ≤ maxNodes)
    (hpost : post () { s with nodes := s.nodes + n }) : Yields (countNodes n) s post fail := by
  rw [countNodes, yields_bind, yields_alter, yields_bind, yields_look]
  dsimp only
  rw [saturated_of_le h, if_neg (Nat.not_lt.mpr h), yields_pure]
  exact hpost

variable {display : Float → String}

theorem yields_value {levels : ℕ} {post : Part → Reader → Prop} (hdepth : s.depth < maxDepth)
    (hnodes : s.nodes + 1 ≤ maxNodes)
    (h : Yields (valueInner display (value display levels)) { s with depth := s.depth + 1, nodes := s.nodes + 1 }
      (fun part t => post part { t with peak := max t.peak (t.around + part.value.nodes), depth := t.depth - 1 }) fail) :
    Yields (value display (levels + 1)) s post fail := by
  rw [value, yields_bind, yields_look, if_neg (Nat.not_le.mpr hdepth), deeper]
  rw [yields_bind, yields_alter, yields_bind, yields_bind]
  refine yields_countNodes hnodes ?_
  rw [yields_bind]
  refine h.mono (fun part t hpost => ?_) fun _ _ => id
  exact hpost

theorem keeps_concat {u : Reader} (h : u.objects = s.objects ++ [none]) : KeepsObjects s u := by
  intro i o ho
  rw [h, List.getElem?_append_left (List.getElem?_eq_some_iff.mp ho).1]
  exact ho


theorem Reader.ahead_left {text : List UInt8} (h : s.ahead = text ++ rest) : rest.length ≤ s.data.length - s.pos := by
  have hlen := congrArg List.length h
  rw [ahead, List.length_drop, List.length_append] at hlen
  omega

/-- The end of a dense array without named properties. -/
theorem yields_untilEnd {body : Unit → Read Unit} {post : Unit → Reader → Prop} (h : s.ahead = 36 :: rest)
    (hpost : post () s) : Yields (untilTag endDenseArray body ()) s post fail := by
  rw [untilTag, yields_bind, yields_look, untilStop, yields_bind, yields_bind]
  refine yields_peekTag h (by decide) ?_
  rw [yields_pure, if_pos (by decide), yields_pure]
  exact hpost

theorem yields_arrayEnd {value : Read Part} {id : ℕ} {items : List Part} {post : Part → Reader → Prop}
    {len : UInt8} (h : s.ahead = [36, 0, len] ++ rest) (hlen : len &&& 0x80 = 0)
    (hpost : post (.array items) { s.advance 3 with
      objects := s.objects.set id (some
        { value := (Part.array items).value, weight := max (s.nodes - s.starts.getD id 0) 1 }) }) :
    Yields (do
      let _ ← untilTag endDenseArray (fun _ => within (Part.array items).value.nodes do
        let _ ← propertyKey display value
        let _ ← value
        pure ()) ()
      let _ ← tag
      let _ ← varint
      let _ ← varint
      remember id (.array items)) s post fail := by
  rw [yields_bind]
  refine yields_untilEnd h ?_
  rw [yields_bind]
  refine yields_tag h (by decide) ?_
  rw [yields_bind]
  refine @yields_varint _ _ (len :: rest) _ _ 0 (by rw [Reader.ahead_advance, h]; rfl) (by decide) rfl ?_
  rw [yields_bind]
  refine yields_varint (by rw [Reader.ahead_advance, Reader.ahead_advance, h]; rfl) hlen rfl ?_
  rw [remember, yields_bind, yields_alter, yields_pure]
  exact hpost

/-- One item between the tag of an array and its end, read by `inner`. -/
theorem yields_denseArray_one {value : Read Part} {text : List UInt8} {depth nodes : ℕ}
    (hahead : s.ahead = 1 :: (text ++ [36, 0, 1] ++ rest))
    (hinner : ∀ u : Reader, u.data = s.data → u.ahead = text ++ ([36, 0, 1] ++ rest) → u.depth = s.depth →
      u.nodes = s.nodes → KeepsObjects s u → Yields value u (fun part t => Took u t part ([36, 0, 1] ++ rest) depth nodes) fail) :
    Yields (denseArray display value) s (fun part t => Took s t part rest (depth + 1) nodes ∧
      ∃ weight ≤ max t.nodes 1, t.objects[s.objects.length]? = some (some ⟨part.value, weight⟩)) fail := by
  have hnext : (s.advance 1).ahead = text ++ ([36, 0, 1] ++ rest) := by
    rw [Reader.ahead_advance, hahead, List.drop_one, List.tail_cons, List.append_assoc]
  have hroom : ¬ (s.advance 1).data.length - (s.advance 1).pos < 1 := by
    have hleft := Reader.ahead_left hnext
    rw [List.length_append] at hleft
    simp only [List.length_cons] at hleft
    omega
  simp only [denseArray, reserveId, length, yields_bind, yields_look, yields_alter, yields_pure]
  refine yields_varint (n := 1) hahead (by decide) rfl ?_
  refine yields_ite (fun hshort => absurd hshort hroom) fun _ => ?_
  simp only [times, within, yields_bind, yields_alter, yields_pure]
  refine Yields.mono (hinner _ rfl hnext rfl rfl (keeps_concat rfl)) (fun part t ht => ?_) fun _ _ => id
  have hend := @yields_arrayEnd { t with around := t.around - (Part.array []).value.nodes } rest fail display value
    s.objects.length [part]
    (fun part t => Took s t part rest (depth + 1) nodes ∧
      ∃ weight ≤ max t.nodes 1, t.objects[s.objects.length]? = some (some ⟨part.value, weight⟩)) 1
  simp only [yields_bind] at hend
  refine hend ht.ahead (by decide) ?_
  have hat : t.objects[s.objects.length]? = some none := ht.keeps _ _ List.getElem?_concat_length
  obtain ⟨hlen, -⟩ := List.getElem?_eq_some_iff.mp hat
  refine ⟨⟨ht.data, ?_, ht.level, ht.nodes, ?_, ?_⟩, _, ?_, List.getElem?_set_self hlen⟩
  · have hdrop := Reader.ahead_advance t 3
    rw [ht.ahead] at hdrop
    exact hdrop
  · intro i o ho
    have hi := (List.getElem?_eq_some_iff.mp ho).1
    rw [List.getElem?_set_ne (Nat.ne_of_gt hi)]
    exact ht.keeps i o ((List.getElem?_append_left hi).trans ho)
  · simp [Part.array, Value.depth, depths, ht.depth]
  · exact max_le_max_right 1 (Nat.sub_le ..)

/-- A text that is read as one value, as deep and with as many nodes as said. -/
def ReadsOne (display : Float → String) (levels : ℕ) (text : List UInt8) (s : Reader) (depth nodes : ℕ) : Prop :=
  ∀ rest, s.ahead = text ++ rest →
    Yields (value display levels) s (fun part t => Took s t part rest depth nodes) fun _ _ => False

theorem nested_succ (n : ℕ) (inner : List UInt8) : nested (n + 1) inner = [65, 1] ++ nested n inner ++ [36, 0, 1] := by
  rw [nested, nested, List.replicate_succ, List.replicate_succ', List.flatten_cons, List.flatten_append]
  simp

theorem reads_array {levels depth nodes : ℕ} {text : List UInt8} (hdepth : s.depth < maxDepth)
    (hnodes : s.nodes + 1 ≤ maxNodes)
    (hinner : ∀ u : Reader, u.depth = s.depth + 1 → u.nodes = s.nodes + 1 → KeepsObjects s u →
      ReadsOne display levels text u depth nodes) (hahead : s.ahead = [65, 1] ++ text ++ [36, 0, 1] ++ rest) :
    Yields (value display (levels + 1)) s (fun part t => Took s t part rest (depth + 1) (nodes + 1) ∧
      ∃ weight ≤ max t.nodes 1, t.objects[s.objects.length]? = some (some ⟨part.value, weight⟩)) fun _ _ => False := by
  refine yields_value hdepth hnodes ?_
  rw [valueInner, yields_bind]
  have hbytes : s.ahead = 65 :: 1 :: (text ++ [36, 0, 1] ++ rest) := by simpa using hahead
  have hitem : (s.advance 1).ahead = 1 :: (text ++ [36, 0, 1] ++ rest) := by
    rw [Reader.ahead_advance, hbytes]
    rfl
  refine yields_valueTag hbytes (by decide) (by decide) ?_
  have htag : tagOf 65 = some .beginDenseArray := rfl
  rw [htag]
  refine Yields.mono (yields_denseArray_one hitem fun u _ hu hlevel hcount hkeeps =>
    hinner u hlevel hcount hkeeps _ hu) (fun part t ht => ?_) fun _ _ => id
  obtain ⟨⟨hdata, hend, hlevel, hcount, hkeeps, hvalue⟩, hobject⟩ := ht
  have hback : t.depth - 1 = s.depth := by
    rw [hlevel]
    rfl
  have hsum : t.nodes ≤ s.nodes + (nodes + 1) := by
    have hle : t.nodes ≤ s.nodes + 1 + nodes := hcount
    omega
  exact ⟨⟨hdata, hend, hback, hsum, hkeeps, hvalue⟩, hobject⟩

theorem reads_nested {levels depth nodes : ℕ} {inner : List UInt8} (n : ℕ) (hdepth : s.depth + n ≤ maxDepth)
    (hnodes : s.nodes + n ≤ maxNodes)
    (hinner : ∀ u : Reader, u.depth = s.depth + n → u.nodes = s.nodes + n → KeepsObjects s u →
      ReadsOne display levels inner u depth nodes) :
    ReadsOne display (levels + n) (nested n inner) s (depth + n) (nodes + n) := by
  induction n generalizing s with
  | zero =>
    have hsame : nested 0 inner = inner := by simp [nested]
    rw [hsame]
    exact hinner s rfl rfl fun _ _ => id
  | succ n ih =>
    intro rest hahead
    rw [nested_succ] at hahead
    refine (reads_array (by omega) (by omega) (fun u hlevel hcount hkeeps => ?_) hahead).mono (fun _ _ ht => ht.1)
      fun _ _ => id
    refine ih (by omega) (by omega) fun w hw hsum hkept => ?_
    exact hinner w (by omega) (by omega) (hkeeps.trans hkept)

theorem reads_null {levels : ℕ} (hdepth : s.depth < maxDepth) (hnodes : s.nodes + 1 ≤ maxNodes) :
    ReadsOne display (levels + 1) [48] s 1 1 := by
  intro rest hahead
  refine yields_value hdepth hnodes ?_
  rw [valueInner, yields_bind]
  refine yields_valueTag hahead (by decide) (by decide) ?_
  have htag : tagOf 48 = some .null := rfl
  rw [htag]
  have hend := Reader.ahead_advance s 1
  rw [hahead] at hend
  exact ⟨rfl, hend, Nat.add_sub_cancel .., Nat.le_refl _, fun _ _ => id, by simp [Part.leaf, Value.depth]⟩

theorem reads_reference {levels weight : ℕ} {named : Value} (hdepth : s.depth < maxDepth)
    (hobject : s.objects[1]? = some (some ⟨named, weight⟩)) (hnodes : s.nodes + 1 + weight ≤ maxNodes) :
    ReadsOne display (levels + 1) [94, 1] s named.depth (1 + weight) := by
  intro rest hahead
  refine yields_value hdepth (by omega) ?_
  rw [valueInner, yields_bind]
  refine yields_valueTag hahead (by decide) (by decide) ?_
  have htag : tagOf 94 = some .objectReference := rfl
  have hid : (s.advance 1).ahead = 1 :: rest := by
    rw [Reader.ahead_advance, hahead]
    rfl
  rw [htag]
  dsimp only
  rw [reference, yields_bind]
  refine yields_varint (n := 1) hid (by decide) rfl ?_
  rw [yields_bind, yields_look]
  rw [show ((({ s with depth := s.depth + 1, nodes := s.nodes + 1 } : Reader).advance 1).advance 1).objects[1]? =
    some (some ⟨named, weight⟩) from hobject]
  dsimp only
  rw [yields_bind]
  refine yields_countNodes hnodes ?_
  rw [yields_bind, yields_look, yields_pure]
  have hend := Reader.ahead_advance s 2
  rw [hahead] at hend
  exact ⟨rfl, hend, Nat.add_sub_cancel .., by simp [Reader.advance]; omega, fun _ _ => id, rfl⟩


/-- Two items, the second of which may name what the first one is. -/
theorem yields_denseArray_two {value : Read Part} {first second : List UInt8} {depth depth' : ℕ}
    {named : Part → Reader → Prop}
    (hahead : s.ahead = 2 :: (first ++ second ++ [36, 0, 2] ++ rest))
    (hfirst : ∀ u : Reader, u.ahead = first ++ (second ++ [36, 0, 2] ++ rest) → u.depth = s.depth →
      u.nodes = s.nodes → u.objects = s.objects ++ [none] → Yields value u (fun part t => part.value.depth = depth ∧
        t.ahead = second ++ [36, 0, 2] ++ rest ∧ named part t) fail)
    (hsecond : ∀ part t w, named part t → w.ahead = second ++ [36, 0, 2] ++ rest → w.depth = t.depth →
      w.nodes = t.nodes → w.objects = t.objects →
      Yields value w (fun part t => part.value.depth = depth' ∧ t.ahead = [36, 0, 2] ++ rest) fail) :
    Yields (denseArray display value) s (fun part _ => part.value.depth = max depth depth' + 1) fail := by
  have hnext : (s.advance 1).ahead = first ++ (second ++ [36, 0, 2] ++ rest) := by
    rw [Reader.ahead_advance, hahead, List.drop_one, List.tail_cons]
    simp
  have hroom : ¬ (s.advance 1).data.length - (s.advance 1).pos < 2 := by
    have hleft := Reader.ahead_left hnext
    simp only [List.length_append, List.length_cons] at hleft
    omega
  simp only [denseArray, reserveId, length, yields_bind, yields_look, yields_alter, yields_pure]
  refine yields_varint (n := 2) hahead (by decide) rfl ?_
  refine yields_ite (fun hshort => absurd hshort hroom) fun _ => ?_
  simp only [times, within, yields_bind, yields_alter, yields_pure]
  refine Yields.mono (hfirst _ hnext rfl rfl rfl) (fun part t ht => ?_) fun _ _ => id
  obtain ⟨hdepth, hend, hnamed⟩ := ht
  refine Yields.mono (hsecond part t _ hnamed hend rfl rfl rfl) (fun part' t' ht' => ?_) fun _ _ => id
  obtain ⟨hdepth', hend'⟩ := ht'
  have hlast := @yields_arrayEnd { t' with around := t'.around - (Part.array ([] ++ [part])).value.nodes } rest fail
    display value s.objects.length ([] ++ [part] ++ [part']) (fun part _ => part.value.depth = max depth depth' + 1) 2
    hend' (by decide)
  simp only [yields_bind] at hlast
  refine hlast ?_
  simp [Part.array, Value.depth, depths, hdepth, hdepth']

/-- An array of a nested one and of another whose innermost value names the first. -/
theorem depth_of_doubled {n : ℕ} (hn : n + 2 ≤ maxDepth) (hpos : 0 < n) :
    (deserialize display ([0xff, 15, 65, 2] ++ nested n [48] ++ nested n [94, 1] ++ [36, 0, 2])).toOption.map
      Value.depth = some (2 * n + 2) := by
  have hrun : Yields (deserializeParts display)
      (start ([0xff, 15, 65, 2] ++ nested n [48] ++ nested n [94, 1] ++ [36, 0, 2]))
      (fun part _ => part.value.depth = 2 * n + 2) fun _ _ => False := by
    generalize hs : start _ = s
    have hahead : s.ahead = 0xff :: 15 :: 65 :: 2 :: (nested n [48] ++ nested n [94, 1] ++ [36, 0, 2] ++ []) := by
      rw [← hs]
      simp [Reader.ahead, start]
    have hdepth : s.depth = 0 := by rw [← hs]; rfl
    have hnodes : s.nodes = 0 := by rw [← hs]; rfl
    have hobjects : s.objects = [] := by rw [← hs]; rfl
    clear hs
    obtain ⟨m, rfl⟩ : ∃ m, n = m + 1 := ⟨n - 1, by omega⟩
    obtain ⟨k, hk⟩ : ∃ k, maxDepth = k + 1 + m + 1 := ⟨maxDepth - m - 2, by omega⟩
    have hlimit : maxDepth ≤ 200 := by decide
    have hmany : 1000 ≤ maxNodes := by decide
    rw [deserializeParts, yields_bind]
    refine yields_tag hahead (by decide) ?_
    refine yields_ite (fun hne => absurd rfl hne) fun _ => ?_
    rw [yields_bind]
    refine yields_varint (by rw [Reader.ahead_advance, hahead]; rfl) (by decide) rfl ?_
    rw [yields_bind, yields_alter]
    refine yields_value (hdepth.trans_lt (by decide)) (by change s.nodes + 1 ≤ maxNodes; omega) ?_
    rw [valueInner, yields_bind]
    have htwo : ((s.advance 1).advance 1).ahead =
        65 :: 2 :: (nested (m + 1) [48] ++ nested (m + 1) [94, 1] ++ [36, 0, 2] ++ []) := by
      rw [Reader.ahead_advance, Reader.ahead_advance, hahead]
      rfl
    refine yields_valueTag htwo (by decide) (by decide) ?_
    have htag : tagOf 65 = some .beginDenseArray := rfl
    rw [htag]
    have hitems : (((s.advance 1).advance 1).advance 1).ahead =
        2 :: (nested (m + 1) [48] ++ nested (m + 1) [94, 1] ++ [36, 0, 2] ++ []) := by
      rw [Reader.ahead_advance, htwo]
      rfl
    have hfirst : ∀ u : Reader, u.ahead = nested (m + 1) [48] ++ (nested (m + 1) [94, 1] ++ [36, 0, 2] ++ []) →
        u.depth = s.depth + 1 → u.nodes = s.nodes + 1 → u.objects = s.objects ++ [none] →
        Yields (value display maxDepth) u (fun part t => part.value.depth = m + 2 ∧
          t.ahead = nested (m + 1) [94, 1] ++ [36, 0, 2] ++ [] ∧ t.depth = 1 ∧ t.nodes ≤ m + 3 ∧
          ∃ weight ≤ m + 3, t.objects[1]? = some (some ⟨part.value, weight⟩)) fun _ _ => False := by
      intro u hu hlevel hcount hnone
      rw [nested_succ] at hu
      have hnull : ∀ w : Reader, w.depth = u.depth + 1 → w.nodes = u.nodes + 1 → KeepsObjects u w →
          ReadsOne display (k + 1 + m) (nested m [48]) w (1 + m) (1 + m) := by
        intro w hw hsum _
        refine reads_nested m (by omega) (by omega) fun x hx hxs _ => ?_
        exact reads_null (by omega) (by omega)
      rw [hk]
      refine (reads_array (by omega) (by omega) hnull hu).mono (fun part t ht => ?_) fun _ _ => id
      obtain ⟨⟨-, hend, hback, hsum, -, hvalue⟩, weight, hweight, hobject⟩ := ht
      rw [hnone, hobjects] at hobject
      exact ⟨by omega, hend, by omega, by omega, weight, by omega, hobject⟩
    have hsecond : ∀ (part : Part) (t w : Reader), (part.value.depth = m + 2 ∧ t.depth = 1 ∧ t.nodes ≤ m + 3 ∧
          ∃ weight ≤ m + 3, t.objects[1]? = some (some ⟨part.value, weight⟩)) →
        w.ahead = nested (m + 1) [94, 1] ++ [36, 0, 2] ++ [] → w.depth = t.depth → w.nodes = t.nodes →
        w.objects = t.objects → Yields (value display maxDepth) w (fun part t => part.value.depth = 2 * m + 3 ∧ t.ahead = [36, 0, 2] ++ [])
          fun _ _ => False := by
      rintro part t w ⟨hvalue, hlevel, hcount, weight, hweight, hobject⟩ hw hdepth' hnodes' hobjects'
      have hreads : ReadsOne display (k + 1 + (m + 1)) (nested (m + 1) [94, 1]) w (part.value.depth + (m + 1))
          (1 + weight + (m + 1)) := by
        refine reads_nested (m + 1) (by omega) (by omega) fun x hx hxs hkeeps => ?_
        refine reads_reference (by omega) (hkeeps 1 _ ?_) (by omega)
        rw [hobjects']
        exact hobject
      rw [hk]
      refine (hreads ([36, 0, 2] ++ []) (by rw [hw, List.append_assoc])).mono (fun part' t' ht' => ?_) fun _ _ => id
      exact ⟨by rw [ht'.depth]; omega, ht'.ahead⟩
    refine Yields.mono (yields_denseArray_two hitems (fun u hu hlevel hcount hnone =>
      (hfirst u hu hlevel hcount hnone).mono (fun part t ht => ⟨ht.1, ht.2.1, ht.1, ht.2.2⟩) fun _ _ => id) hsecond)
      (fun part t ht => ?_) fun _ _ => id
    omega
  have hresult := hrun
  unfold Yields at hresult
  rw [deserialize, read]
  rcases hread : (deserializeParts display).run
    (start ([0xff, 15, 65, 2] ++ nested n [48] ++ nested n [94, 1] ++ [36, 0, 2])) with ⟨result, t⟩
  rw [hread] at hresult
  cases result with
  | ok part => exact congrArg some hresult
  | error e => exact hresult.elim

end nesting

/-- A reference as deep as what it names: neither is read beyond the limit, together they go twice as deep. -/
def doubled : List UInt8 := [0xff, 15, 65, 2] ++ nested 100 [48] ++ nested 100 [94, 1] ++ [36, 0, 2]

theorem doubled_too_deep :
    ¬ ∀ v, deserialize Float.toString doubled = .ok v → v.depth ≤ maxDepth := by
  have hdepth : (deserialize Float.toString doubled).toOption.map Value.depth = some 202 :=
    depth_of_doubled (by decide) (by decide)
  intro hall
  cases hrun : deserialize Float.toString doubled with
  | error e =>
    rw [hrun] at hdepth
    cases hdepth
  | ok v =>
    rw [hrun] at hdepth
    have hv : v.depth = 202 := Option.some.inj hdepth
    have hle := hall v hrun
    rw [hv] at hle
    exact absurd hle (by decide)

end UwuSsh.Chromium.V8

import UwuSsh.Lock.AccountKey

/-!
A written key is read back as what it was, however it is spelled. The code's symbols and the key's bytes are the
same bits, but for the two that the last key symbol has to spare: reading does not look at them, so a code is
the key's own just when they are zero.
-/
namespace UwuSsh.AccountKey

open Radix

/-! ### Symbols and bytes -/

theorem and_31 (n : ℕ) : n &&& 31 = n % 2 ^ 5 := Nat.and_two_pow_sub_one_eq_mod n 5

/-- What has come in and what has gone out, before the next byte. -/
structure Encoder.Fits (e : Encoder) (value : ℕ) (bytes : ℕ) : Prop where
  holds : Holds value 5 e.symbols e.bits e.accumulator
  small : ∀ s ∈ e.symbols, s < 32
  few : e.bits < 5
  count : 5 * e.symbols.length + e.bits = 8 * bytes

theorem drain_spec {value accumulator turns bits : ℕ} {out : List ℕ} (h : Holds value 5 out bits accumulator)
    (hturns : bits ≤ turns) :
    Holds value 5 (out ++ (drain accumulator turns bits).1) (drain accumulator turns bits).2 accumulator ∧
      (∀ s ∈ (drain accumulator turns bits).1, s < 32) ∧ (drain accumulator turns bits).2 < 5 ∧
      5 * (drain accumulator turns bits).1.length + (drain accumulator turns bits).2 = bits := by
  induction turns generalizing bits out with
  | zero =>
    obtain rfl : bits = 0 := by omega
    rw [drain, List.append_nil]
    exact ⟨h, nofun, by omega, rfl⟩
  | succ turns ih =>
    rw [drain]
    by_cases hbits : 5 ≤ bits
    · obtain ⟨rest, rfl⟩ : ∃ rest, bits = rest + 5 := ⟨bits - 5, by omega⟩
      have hout := h.shiftOut
      rw [if_pos hbits, Nat.add_sub_cancel, and_31]
      obtain ⟨hholds, hsmall, hfew, hcount⟩ := ih hout (by omega)
      refine ⟨?_, ?_, hfew, ?_⟩
      · rwa [List.append_assoc, List.singleton_append] at hholds
      · exact List.forall_mem_cons.mpr ⟨Nat.mod_lt _ (by decide), hsmall⟩
      · dsimp only
        rw [List.length_cons]
        omega
    · rw [if_neg hbits, List.append_nil]
      exact ⟨h, nofun, by omega, by simp⟩

theorem Encoder.Fits.push {e : Encoder} {value bytes : ℕ} (h : e.Fits value bytes) (byte : UInt8) :
    (e.push byte).Fits (value * 2 ^ 8 + byte.toNat) (bytes + 1) := by
  have hfew := h.few
  have hcount := h.count
  have hin := @Holds.shiftIn _ _ _ _ _ registerBits 8 byte.toNat h.holds byte.toNat_lt (by unfold registerBits; omega)
  obtain ⟨hholds, hsmall, hleft, hlength⟩ := drain_spec hin (Nat.le_refl _)
  refine ⟨hholds, List.forall_mem_append.mpr ⟨h.small, hsmall⟩, hleft, ?_⟩
  simp only [Encoder.push, List.length_append] at hlength ⊢
  omega

/-- The number that the bytes are. -/
def valueOf (bytes : List UInt8) : ℕ := ofDigits 8 (bytes.map UInt8.toNat)

theorem fits_foldl (bytes : List UInt8) :
    (bytes.foldl Encoder.push { symbols := [], accumulator := 0, bits := 0 }).Fits (valueOf bytes) bytes.length := by
  induction bytes using List.reverseRecOn with
  | nil => exact ⟨holds_empty 5 0, nofun, by decide, rfl⟩
  | append_singleton bytes byte ih =>
    have hvalue : valueOf (bytes ++ [byte]) = valueOf bytes * 2 ^ 8 + byte.toNat := by
      rw [valueOf, List.map_append, List.map_singleton, ofDigits_concat]
      rfl
    rw [List.foldl_append, hvalue, List.length_append]
    exact ih.push byte

/-- A key's symbols are its bits and two zeros. -/
theorem encode_spec (key : Key) : (encode key.bytes).length = keyChars ∧ (∀ s ∈ encode key.bytes, s < 2 ^ 5) ∧
    ofDigits 5 (encode key.bytes) = valueOf key.bytes * 4 := by
  obtain ⟨hholds, hsmall, hfew, hcount⟩ := fits_foldl key.bytes
  rw [key.length_eq] at hcount
  unfold encode
  generalize key.bytes.foldl Encoder.push { symbols := [], accumulator := 0, bits := 0 } = e at *
  have hbits : e.bits = 3 := by omega
  have hlast : ((e.accumulator <<< (5 - e.bits)) % 2 ^ registerBits) &&& 31 =
      e.accumulator % 2 ^ e.bits * 2 ^ (5 - e.bits) := by
    rw [and_31, hbits, registerBits, Nat.shiftLeft_eq]
    omega
  dsimp only
  rw [if_pos (by omega), hlast]
  refine ⟨?_, ?_, ?_⟩
  · rw [List.length_append, List.length_singleton, keyChars]
    omega
  · refine List.forall_mem_append.mpr ⟨hsmall, List.forall_mem_singleton.mpr ?_⟩
    rw [hbits]
    omega
  · have hspare : 2 ^ (5 - 3) = 4 := rfl
    rw [hholds.pad (by omega), hbits, hspare]

/-- The same for the decoder. -/
structure Decoder.Fits (d : Decoder) (value : ℕ) (symbols : ℕ) : Prop where
  holds : Holds value 8 (d.bytes.map UInt8.toNat) d.bits d.accumulator
  few : d.bits < 8
  count : 8 * d.bytes.length + d.bits = 5 * symbols

theorem Decoder.Fits.push {d : Decoder} {value symbols index : ℕ} (h : d.Fits value symbols) (hindex : index < 2 ^ 5) :
    (d.push index).Fits (value * 2 ^ 5 + index) (symbols + 1) := by
  have hfew := h.few
  have hcount := h.count
  have hin := @Holds.shiftIn _ _ _ _ _ registerBits 5 index h.holds hindex (by unfold registerBits; omega)
  unfold Decoder.push
  by_cases hbits : 8 ≤ d.bits + 5
  · obtain ⟨rest, hrest⟩ : ∃ rest, d.bits + 5 = rest + 8 := ⟨d.bits + 5 - 8, by omega⟩
    rw [hrest] at hin
    have hout := hin.shiftOut
    dsimp only
    rw [if_pos hbits, hrest, Nat.add_sub_cancel]
    have hleft : rest < 8 := by omega
    refine ⟨?_, hleft, ?_⟩
    · have hbyte : (UInt8.ofNat (shiftIn registerBits 5 d.accumulator index >>> rest)).toNat =
          (shiftIn registerBits 5 d.accumulator index >>> rest) % 2 ^ 8 := rfl
      rw [List.map_append, List.map_singleton, hbyte]
      exact hout
    · dsimp only
      rw [List.length_append, List.length_singleton]
      omega
  · dsimp only
    rw [if_neg hbits]
    have hleft : d.bits + 5 < 8 := by omega
    refine ⟨hin, hleft, ?_⟩
    dsimp only
    omega

theorem fits_foldl_decoder (indices : List ℕ) (h : ∀ i ∈ indices, i < 2 ^ 5) :
    (indices.foldl Decoder.push { bytes := [], accumulator := 0, bits := 0 }).Fits (ofDigits 5 indices) indices.length := by
  induction indices using List.reverseRecOn with
  | nil => exact ⟨holds_empty 8 0, by decide, rfl⟩
  | append_singleton indices index ih =>
    have hrest := ih fun i hi => h i (List.mem_append_left _ hi)
    rw [List.foldl_append, ofDigits_concat, List.length_append]
    exact hrest.push (h index (by simp))

/-- 26 symbols are 16 bytes and two bits that are not looked at. -/
theorem decode_spec {indices : List ℕ} (hlen : indices.length = keyChars) (h : ∀ i ∈ indices, i < 2 ^ 5) :
    ∃ key, decode indices = some key ∧ ofDigits 5 indices = valueOf key.bytes * 4 + ofDigits 5 indices % 4 := by
  obtain ⟨hholds, hfew, hcount⟩ := fits_foldl_decoder indices h
  rw [hlen, keyChars] at hcount
  unfold decode
  generalize indices.foldl Decoder.push { bytes := [], accumulator := 0, bits := 0 } = d at *
  have hbytes : d.bytes.length = 16 := by omega
  have hbits : d.bits = 2 := by omega
  dsimp only
  rw [dif_pos hbytes]
  refine ⟨⟨d.bytes, hbytes⟩, rfl, ?_⟩
  have hvalue : ofDigits 5 indices = valueOf d.bytes * 2 ^ 2 + d.accumulator % 2 ^ 2 := by
    rwa [Holds, hbits] at hholds
  dsimp only
  omega

/-! ### Spelling -/

/-- What may be written for a symbol of the code: itself, in either case, and O for zero, I or L for one. -/
def Written (byte symbol : UInt8) : Prop :=
  byte = symbol ∨ (65 ≤ symbol ∧ symbol ≤ 90 ∧ byte = symbol + 32) ∨ (symbol = 48 ∧ (byte = 79 ∨ byte = 111)) ∨
    (symbol = 49 ∧ (byte = 73 ∨ byte = 105 ∨ byte = 76 ∨ byte = 108))

instance (byte symbol : UInt8) : Decidable (Written byte symbol) := by
  unfold Written
  infer_instance

/-- A text that spells a code's symbols, with separators anywhere. -/
inductive Spells : List UInt8 → List UInt8 → Prop
  | nil : Spells [] []
  | separator {byte : UInt8} {text symbols : List UInt8} : isSeparator byte = true → Spells text symbols →
      Spells (byte :: text) symbols
  | symbol {byte symbol : UInt8} {text symbols : List UInt8} : isSeparator byte = false → Written byte symbol →
      Spells text symbols → Spells (byte :: text) (symbol :: symbols)

/-- The code's symbols, without the dashes between the groups. -/
def symbolsOfCode (key : Key) : List UInt8 := (toCode key).filter fun byte => byte != 45

theorem written_iff {byte : UInt8} {symbol : ℕ} (h : symbol < 32) : Written byte (letter symbol) ↔ normalise byte = some symbol := by
  have hread : ∀ n < 256, ∀ s ∈ normalise (UInt8.ofNat n), Written (UInt8.ofNat n) (letter s) := by decide +kernel
  have hspelled : ∀ s < 32, normalise (letter s) = some s ∧
      (65 ≤ letter s → letter s ≤ 90 → normalise (letter s + 32) = some s) ∧
      (letter s = 48 → normalise 79 = some s ∧ normalise 111 = some s) ∧
      (letter s = 49 → normalise 73 = some s ∧ normalise 105 = some s ∧ normalise 76 = some s ∧
        normalise 108 = some s) := by decide +kernel
  obtain ⟨hself, hlower, hzero, hone⟩ := hspelled symbol h
  constructor
  · rintro (rfl | ⟨hlow, hhigh, rfl⟩ | ⟨hs, rfl | rfl⟩ | ⟨hs, rfl | rfl | rfl | rfl⟩)
    · exact hself
    · exact hlower hlow hhigh
    · exact (hzero hs).1
    · exact (hzero hs).2
    · exact (hone hs).1
    · exact (hone hs).2.1
    · exact (hone hs).2.2.1
    · exact (hone hs).2.2.2
  · intro hnorm
    have hbyte := hread byte.toNat byte.toNat_lt symbol
    rw [UInt8.ofNat_toNat] at hbyte
    exact hbyte hnorm

theorem normalise_lt {byte : UInt8} {symbol : ℕ} (h : normalise byte = some symbol) : symbol < 32 :=
  (List.findIdx?_eq_some_iff_findIdx_eq.mp h).1

theorem letter_ne_dash {symbol : ℕ} (h : symbol < 32) : letter symbol ≠ 45 := by
  have hall : ∀ s < 32, letter s ≠ 45 := by decide
  exact hall symbol h

theorem spells_iff {text : List UInt8} {symbols : List ℕ} (h : ∀ s ∈ symbols, s < 32) :
    Spells text (symbols.map letter) ↔ readSymbols text = some symbols := by
  induction text generalizing symbols with
  | nil =>
    constructor
    · intro hspells
      cases symbols with
      | nil => rfl
      | cons s symbols => cases hspells
    · intro hread
      cases hread
      exact .nil
  | cons byte text ih =>
    unfold readSymbols at ih ⊢
    cases hseparator : isSeparator byte with
    | true =>
      rw [List.filter_cons_of_neg (by simp [hseparator]), ← ih h]
      constructor
      · intro hspells
        generalize symbols.map letter = letters at hspells ⊢
        cases hspells with
        | separator _ hrest => exact hrest
        | symbol hnot => simp [hseparator] at hnot
      · exact .separator hseparator
    | false =>
      rw [List.filter_cons_of_pos (by simp [hseparator]), List.mapM_cons]
      constructor
      · intro hspells
        cases symbols with
        | nil =>
          cases hspells with
          | separator hyes => simp [hseparator] at hyes
        | cons s symbols =>
          cases hspells with
          | separator hyes => simp [hseparator] at hyes
          | symbol _ hwritten hrest =>
            have hs := (written_iff (h s List.mem_cons_self)).mp hwritten
            have htail := (ih fun x hx => h x (List.mem_cons_of_mem s hx)).mp hrest
            rw [hs, htail]
            rfl
      · intro hread
        cases hs : normalise byte with
        | none => simp [hs] at hread
        | some s =>
          cases htail : (text.filter fun byte => !isSeparator byte).mapM normalise with
          | none => simp [hs, htail] at hread
          | some rest =>
            obtain rfl : s :: rest = symbols := by simpa [hs, htail] using hread
            exact .symbol hseparator ((written_iff (normalise_lt hs)).mpr hs)
              ((ih fun x hx => h x (List.mem_cons_of_mem s hx)).mpr htail)

theorem readSymbols_lt {text : List UInt8} {symbols : List ℕ} (h : readSymbols text = some symbols) :
    ∀ s ∈ symbols, s < 32 := by
  unfold readSymbols at h
  generalize (text.filter fun byte => !isSeparator byte) = bytes at h
  induction bytes generalizing symbols with
  | nil =>
    cases h
    exact nofun
  | cons byte bytes ih =>
    rw [List.mapM_cons] at h
    cases hs : normalise byte with
    | none => simp [hs] at h
    | some s =>
      cases htail : bytes.mapM normalise with
      | none => simp [hs, htail] at h
      | some rest =>
        obtain rfl : s :: rest = symbols := by simpa [hs, htail] using h
        exact List.forall_mem_cons.mpr ⟨normalise_lt hs, ih htail⟩

/-! ### Codes -/

theorem checksum_lt (bytes : List UInt8) : ∀ s ∈ checksum bytes, s < 32 := by
  intro s hs
  simp only [checksum, and_31, List.mem_cons, List.not_mem_nil, or_false] at hs
  obtain rfl | rfl := hs
  · exact Nat.mod_lt _ (by decide)
  · exact Nat.mod_lt _ (by decide)

theorem symbolsOf_lt (key : Key) : ∀ s ∈ symbolsOf key, s < 32 :=
  List.forall_mem_append.mpr ⟨(encode_spec key).2.1, checksum_lt key.bytes⟩

theorem symbolsOfCode_eq (key : Key) : symbolsOfCode key = (symbolsOf key).map letter := by
  have hlt := symbolsOf_lt key
  have hfilter : ∀ (symbols : List ℕ) (k : ℕ), (∀ s ∈ symbols, s < 32) →
      ((symbols.zipIdx k).flatMap fun entry =>
        (if 0 < entry.2 ∧ entry.2 % group = 0 then [45] else []) ++ [letter entry.1]).filter (fun byte => byte != 45) =
      symbols.map letter := by
    intro symbols
    induction symbols with
    | nil => exact fun _ _ => rfl
    | cons s symbols ih =>
      intro k hsymbols
      obtain ⟨hs, hrest⟩ := List.forall_mem_cons.mp hsymbols
      have hletter := letter_ne_dash hs
      rw [List.zipIdx_cons, List.flatMap_cons, List.filter_append, ih (k + 1) hrest]
      split <;> simp [hletter]
  exact hfilter _ _ hlt

theorem Key.eq_of_value {a b : Key} (h : valueOf a.bytes = valueOf b.bytes) : a = b := by
  obtain ⟨abytes, hfirst⟩ := a
  obtain ⟨bbytes, hsecond⟩ := b
  have hsmall : ∀ bytes : List UInt8, ∀ d ∈ bytes.map UInt8.toNat, d < 2 ^ 8 := by
    intro bytes d hd
    obtain ⟨byte, -, rfl⟩ := List.mem_map.mp hd
    exact byte.toNat_lt
  have hmaps := ofDigits_injective (hsmall abytes) (hsmall bbytes)
    (by rw [List.length_map, List.length_map, hfirst, hsecond]) h
  have hbytes : abytes = bbytes := List.map_injective_iff.mpr (fun _ _ => UInt8.toNat_inj.mp) hmaps
  subst hbytes
  rfl

theorem modify_length {α : Type*} (front back : List α) (x : α) (f : α → α) :
    (front ++ x :: back).modify front.length f = front ++ f x :: back := by
  induction front with
  | nil => rfl
  | cons y front ih => rw [List.cons_append, List.length_cons, List.modify_succ_cons, ih, List.cons_append]

/-- A key's code, with the spare bits of its last key symbol set to something else. -/
def withSpare (key : Key) (spare : ℕ) : List ℕ := (symbolsOf key).modify (keyChars - 1) (· + spare)

/-- Its key symbols are the key's bits and then the spare ones. -/
theorem withSpare_spec (key : Key) {spare : ℕ} (h : spare < 4) : ∃ indices, indices.length = keyChars ∧
    (∀ i ∈ indices, i < 2 ^ 5) ∧ ofDigits 5 indices = valueOf key.bytes * 4 + spare ∧
    withSpare key spare = indices ++ checksum key.bytes := by
  obtain ⟨hlen, hsmall, hvalue⟩ := encode_spec key
  obtain ⟨front, last, hsplit⟩ : ∃ front last, encode key.bytes = front ++ [last] :=
    (List.eq_nil_or_concat' (encode key.bytes)).resolve_left fun hnil => by simp [hnil, keyChars] at hlen
  rw [hsplit] at hlen hsmall hvalue
  rw [ofDigits_concat] at hvalue
  have hlast : last < 2 ^ 5 := hsmall last (by simp)
  have hfront : front.length = keyChars - 1 := by
    rw [List.length_append, List.length_singleton] at hlen
    omega
  refine ⟨front ++ [last + spare], by simpa using hlen, ?_, ?_, ?_⟩
  · refine List.forall_mem_append.mpr ⟨fun i hi => hsmall i (List.mem_append_left _ hi), ?_⟩
    refine List.forall_mem_singleton.mpr ?_
    omega
  · rw [ofDigits_concat]
    omega
  · rw [withSpare, symbolsOf, hsplit, ← hfront, List.append_assoc, List.singleton_append, modify_length,
      List.append_assoc, List.singleton_append]

/-- What is read as a key are its symbols, whatever the spare bits are. -/
theorem fromCode_eq_ok_iff {text : List UInt8} {key : Key} :
    fromCode text = .ok key ↔ ∃ spare < 4, readSymbols text = some (withSpare key spare) := by
  constructor
  · intro h
    unfold fromCode at h
    cases hread : readSymbols text with
    | none => simp [hread] at h
    | some symbols =>
      rw [hread] at h
      dsimp only at h
      by_cases hlen : symbols.length ≠ keyChars + checkChars
      · simp [hlen] at h
      · rw [if_neg hlen] at h
        have hsmall := readSymbols_lt hread
        have htake : (symbols.take keyChars).length = keyChars := by
          rw [List.length_take]
          omega
        have hsmallTake : ∀ i ∈ symbols.take keyChars, i < 2 ^ 5 := fun i hi => hsmall i (List.mem_of_mem_take hi)
        obtain ⟨read, hdecode, hvalue⟩ := decode_spec htake hsmallTake
        rw [hdecode] at h
        dsimp only at h
        by_cases hcheck : symbols.drop keyChars ≠ checksum read.bytes
        · simp [hcheck] at h
        · rw [if_neg hcheck] at h
          obtain rfl : read = key := by injection h
          have hspare : ofDigits 5 (symbols.take keyChars) % 4 < 4 := Nat.mod_lt _ (by decide)
          obtain ⟨indices, hlength, hindices, hsame, hcode⟩ := withSpare_spec read hspare
          have hkey := ofDigits_injective hsmallTake hindices (htake.trans hlength.symm) (hvalue.trans hsame.symm)
          refine ⟨_, hspare, ?_⟩
          rw [hcode, ← hkey, ← not_not.mp hcheck, List.take_append_drop]
  · rintro ⟨spare, hspare, hread⟩
    obtain ⟨indices, hlength, hindices, hsame, hcode⟩ := withSpare_spec key hspare
    rw [hcode] at hread
    obtain ⟨read, hdecode, hvalue⟩ := decode_spec hlength hindices
    have hkey : read = key := by
      apply Key.eq_of_value
      omega
    subst hkey
    have hcount : (indices ++ checksum read.bytes).length = keyChars + checkChars := by
      rw [List.length_append, hlength]
      rfl
    unfold fromCode
    rw [hread]
    dsimp only
    rw [if_neg (not_not.mpr hcount), ← hlength, List.take_left, List.drop_left, hdecode]
    exact if_neg (not_not.mpr rfl)

theorem withSpare_zero (key : Key) : withSpare key 0 = symbolsOf key := List.modify_id _ _

theorem spells_code_iff {text : List UInt8} {key : Key} :
    Spells text (symbolsOfCode key) ↔ readSymbols text = some (withSpare key 0) := by
  rw [symbolsOfCode_eq, spells_iff (symbolsOf_lt key), withSpare_zero]

theorem symbolsOf_injective {a b : Key} (h : encode a.bytes = encode b.bytes) : a = b := by
  have hfirst := (encode_spec a).2.2
  have hsecond := (encode_spec b).2.2
  apply Key.eq_of_value
  rw [h] at hfirst
  omega

/-- The text is the key's code but for the spare bits of the last key symbol, which are not zero in it. -/
def SpareBitsSet (text : List UInt8) (key : Key) : Prop :=
  ∃ spare, 0 < spare ∧ spare < 4 ∧ readSymbols text = some (withSpare key spare)

theorem withSpare_injective {key : Key} {a b : ℕ} (ha : a < 4) (hb : b < 4) (h : withSpare key a = withSpare key b) :
    a = b := by
  obtain ⟨first, hlen, -, hfirst, hcode⟩ := withSpare_spec key ha
  obtain ⟨second, hlen', -, hsecond, hcode'⟩ := withSpare_spec key hb
  rw [hcode, hcode'] at h
  have hsame := (List.append_inj h (hlen.trans hlen'.symm)).1
  rw [hsame] at hfirst
  omega

/-- Every spelling of a key's code is read as the key, and just where the spare bits are zero is the text read as
the key a spelling of its code. A symbol changed unnoticed is then another key with the same checksum. -/
theorem fromCode_exact_iff (text : List UInt8) (key : Key) :
    (Spells text (symbolsOfCode key) → fromCode text = .ok key) ∧
      ((fromCode text = .ok key → Spells text (symbolsOfCode key)) ↔ ¬ SpareBitsSet text key) ∧
      (¬ SpareBitsSet text key → fromCode text = .ok key → ∀ (written : Key) (i s : ℕ),
        readSymbols text = some ((symbolsOf written).set i s) → readSymbols text ≠ some (symbolsOf written) →
          key ≠ written ∧ checksum key.bytes = checksum written.bytes) := by
  have hspelled : ¬ SpareBitsSet text key → fromCode text = .ok key → Spells text (symbolsOfCode key) := by
    intro hspare hok
    obtain ⟨spare, hlt, hread⟩ := fromCode_eq_ok_iff.mp hok
    obtain rfl | hpos := Nat.eq_zero_or_pos spare
    · exact spells_code_iff.mpr hread
    · exact absurd ⟨spare, hpos, hlt, hread⟩ hspare
  refine ⟨?_, ⟨?_, hspelled⟩, ?_⟩
  · intro hspells
    exact fromCode_eq_ok_iff.mpr ⟨0, by decide, spells_code_iff.mp hspells⟩
  · rintro hexact ⟨spare, hpos, hlt, hread⟩
    have hzero := spells_code_iff.mp (hexact (fromCode_eq_ok_iff.mpr ⟨spare, hlt, hread⟩))
    have hsame := withSpare_injective hlt (by decide) (Option.some.inj (hread.symm.trans hzero))
    omega
  · intro hspare hok written i s hset hchanged
    have hread := spells_code_iff.mp (hspelled hspare hok)
    rw [withSpare_zero] at hread
    have hkey : key ≠ written := by
      rintro rfl
      exact hchanged hread
    have hsymbols : symbolsOf key = (symbolsOf written).set i s := Option.some.inj (hread.symm.trans hset)
    have hlength := (encode_spec key).1
    have hlength' := (encode_spec written).1
    unfold symbolsOf at hsymbols
    by_cases hi : i < keyChars
    · rw [List.set_append_left _ _ (by omega)] at hsymbols
      exact ⟨hkey, (List.append_inj hsymbols (by rw [List.length_set, hlength, hlength'])).2⟩
    · rw [List.set_append_right _ _ (by omega)] at hsymbols
      exact absurd (symbolsOf_injective (List.append_inj hsymbols (hlength.trans hlength'.symm)).1) hkey

/-- The last key symbol of a code typed as the one after it. -/
theorem fromCode_not_exact : ¬ ∀ (text : List UInt8) (key : Key),
    fromCode text = .ok key → Spells text (symbolsOfCode key) := by
  intro h
  have hread : readSymbols "B9D5MPJ-TB9D5MP-JTB9D5M-PJTB9NW".toUTF8.toList =
      some (withSpare ⟨List.replicate 16 90, rfl⟩ 1) := by decide +kernel
  have hok := fromCode_eq_ok_iff.mpr ⟨1, by decide, hread⟩
  have hzero := spells_code_iff.mp (h _ _ hok)
  have hsame := withSpare_injective (by decide) (by decide) (Option.some.inj (hread.symm.trans hzero))
  exact Nat.one_ne_zero hsame

end UwuSsh.AccountKey

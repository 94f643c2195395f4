import UwuSsh.Keygen.Ppk
import UwuSsh.Lib.Fallible
import UwuSsh.Lib.Sha256

/-!
A file that was written is read back. Each part of the layout takes just what was written for it and gives what it
was written from, and so the whole does; and what the MAC covers can be taken apart again, so it is the same for
the same key only.
-/
namespace UwuSsh.Ppk

open Reader

/-! ### Lines -/

theorem newline_not_mem_char {c : Char} (h : c ≠ '\n') : 10 ∉ String.utf8EncodeChar c := by
  have hbyte : ∀ x m k : ℕ, 128 ≤ k → x % m < m → m + k ≤ 256 → 10 ≠ UInt8.ofNat (x % m + k) := by
    intro x m k hk hm hle heq
    have hnat := congrArg UInt8.toNat heq
    rw [UInt8.toNat_ofNat', Nat.mod_eq_of_lt (by omega)] at hnat
    have hten : (10 : UInt8).toNat = 10 := rfl
    omega
  have htwo : ∀ x k, 128 ≤ k → k ≤ 224 → 10 ≠ UInt8.ofNat (x % 32 + k) :=
    fun x k hk hle => hbyte x 32 k hk (Nat.mod_lt _ (by decide)) (by omega)
  have hsix : ∀ x, 10 ≠ UInt8.ofNat (x % 64 + 128) :=
    fun x => hbyte x 64 128 (by decide) (Nat.mod_lt _ (by decide)) (by decide)
  have hthree : ∀ x, 10 ≠ UInt8.ofNat (x % 16 + 224) :=
    fun x => hbyte x 16 224 (by decide) (Nat.mod_lt _ (by decide)) (by decide)
  have hfour : ∀ x, 10 ≠ UInt8.ofNat (x % 8 + 240) :=
    fun x => hbyte x 8 240 (by decide) (Nat.mod_lt _ (by decide)) (by decide)
  unfold String.utf8EncodeChar
  dsimp only
  split
  · rename_i hascii
    rw [List.mem_singleton]
    intro heq
    have hnat := congrArg UInt8.toNat heq
    rw [UInt8.toNat_ofNat', Nat.mod_eq_of_lt (by omega)] at hnat
    exact h (Char.ext (UInt32.toNat_inj.mp hnat.symm))
  · split
    · simp only [List.mem_cons, List.not_mem_nil, or_false, not_or]
      exact ⟨htwo _ 192 (by decide) (by decide), hsix _⟩
    · split
      · simp only [List.mem_cons, List.not_mem_nil, or_false, not_or]
        exact ⟨hthree _, hsix _, hsix _⟩
      · simp only [List.mem_cons, List.not_mem_nil, or_false, not_or]
        exact ⟨hfour _, hsix _, hsix _, hsix _⟩

theorem newline_not_mem_utf8 {text : String} (h : '\n' ∉ text.toList) : 10 ∉ utf8 text := by
  intro hmem
  obtain ⟨c, hc, hbyte⟩ := List.mem_flatMap.mp hmem
  apply newline_not_mem_char _ hbyte
  rintro rfl
  exact h hc

theorem stripStart_append (start text : List UInt8) : stripStart start (start ++ text) = some text := by
  have hstart : start.isPrefixOf (start ++ text) = true := by
    rw [List.isPrefixOf_iff_prefix]
    exact List.prefix_append start text
  rw [stripStart, if_pos hstart, List.drop_left]

/-- A header line gives its value. -/
theorem takes_field {label : String} {value : List UInt8} (hlabel : '\n' ∉ label.toList) (hvalue : 10 ∉ value) :
    Takes (field label) (headerLine label value) value := by
  have hcolon : 10 ∉ utf8 ": " := by decide
  have hline : 10 ∉ utf8 label ++ utf8 ": " ++ value := by
    simp only [List.mem_append, not_or]
    exact ⟨⟨newline_not_mem_utf8 hlabel, hcolon⟩, hvalue⟩
  exact (takes_upTo hline).lift (stripStart_append _ value)

theorem digit_of_mem_toDigits {n : ℕ} {c : Char} (h : c ∈ Nat.toDigits 10 n) : 48 ≤ c.toNat ∧ c.toNat ≤ 57 := by
  have hdigit := Nat.isDigit_of_mem_toDigits (by decide) (by decide) h
  simp only [Char.isDigit, Bool.and_eq_true, decide_eq_true_eq] at hdigit
  exact ⟨hdigit.1, hdigit.2⟩

theorem toNat_digit {n : ℕ} {c : Char} (h : c ∈ Nat.toDigits 10 n) : (UInt8.ofNat c.toNat).toNat = c.toNat := by
  have hdigit := digit_of_mem_toDigits h
  rw [UInt8.toNat_ofNat']
  omega

theorem decimal_digit {n : ℕ} {byte : UInt8} (h : byte ∈ decimal n) : 48 ≤ byte ∧ byte ≤ 57 := by
  obtain ⟨c, hc, rfl⟩ := List.mem_map.mp h
  have hdigit := digit_of_mem_toDigits hc
  have hnat := toNat_digit hc
  rw [UInt8.le_iff_toNat_le, UInt8.le_iff_toNat_le, hnat]
  exact hdigit

theorem newline_not_mem_decimal (n : ℕ) : 10 ∉ decimal n := by
  intro h
  have hdigit := (decimal_digit h).1
  exact absurd hdigit (by decide)

theorem parseDecimal_decimal (n : ℕ) : parseDecimal (decimal n) = some n := by
  have hne : decimal n ≠ [] := by
    unfold decimal
    intro hnil
    exact Nat.toDigits_ne_nil (List.map_eq_nil_iff.mp hnil)
  have hall : (decimal n).all (fun byte => 48 ≤ byte && byte ≤ 57) = true := by
    rw [List.all_eq_true]
    intro byte hbyte
    simpa using decimal_digit hbyte
  have hvalue : (decimal n).foldl (fun n byte => 10 * n + (byte.toNat - 48)) 0 = n := by
    have hfold := Nat.ofDigitChars_toDigits (b := 10) (n := n) (by decide) (by decide)
    rw [Nat.ofDigitChars_eq_foldl] at hfold
    rw [decimal, List.foldl_map]
    refine Eq.trans ?_ hfold
    apply List.foldl_ext
    intro acc c hc
    rw [toNat_digit hc]
    rfl
  rw [parseDecimal, if_pos ⟨hne, hall⟩, hvalue]

theorem takes_number {label : String} (hlabel : '\n' ∉ label.toList) (n : ℕ) :
    Takes (number label) (headerLine label (decimal n)) n :=
  (takes_field hlabel (newline_not_mem_decimal n)).lift (parseDecimal_decimal n)

theorem unhexDigit_hexDigit {n : ℕ} (h : n < 16) : unhexDigit (hexDigit n) = some n := by
  have hall : ∀ n < 16, unhexDigit (hexDigit n) = some n := by decide
  exact hall n h

theorem newline_ne_hexDigit {n : ℕ} (h : n < 16) : 10 ≠ hexDigit n := by
  have hall : ∀ n < 16, 10 ≠ hexDigit n := by decide
  exact hall n h

theorem newline_not_mem_hex (bytes : List UInt8) : 10 ∉ hex bytes := by
  intro h
  obtain ⟨byte, -, hmem⟩ := List.mem_flatMap.mp h
  have hbyte := byte.toNat_lt
  simp only [List.mem_cons, List.not_mem_nil, or_false] at hmem
  obtain heq | heq := hmem
  · exact newline_ne_hexDigit (by omega) heq
  · exact newline_ne_hexDigit (Nat.mod_lt _ (by decide)) heq

theorem unhex_hex (bytes : List UInt8) : unhex (hex bytes) = some bytes := by
  induction bytes with
  | nil => rfl
  | cons byte bytes ih =>
    have hbyte := byte.toNat_lt
    have hsplit : byte.toNat / 16 * 16 + byte.toNat % 16 = byte.toNat := by omega
    have hcons : hex (byte :: bytes) = hexDigit (byte.toNat / 16) :: hexDigit (byte.toNat % 16) :: hex bytes := rfl
    rw [hcons, unhex, unhexDigit_hexDigit (by omega), unhexDigit_hexDigit (Nat.mod_lt _ (by decide)), ih]
    dsimp only [bind, Option.bind, pure]
    rw [hsplit, UInt8.ofNat_toNat]

/-! ### Base64 in counted lines -/

theorem newline_ne_letter {v : ℕ} (h : v < 64) : 10 ≠ SerdeBytesVec.letter (UInt32.ofNat v) := by
  have hall : ∀ i : Fin 64, 10 ≠ SerdeBytesVec.letter (UInt32.ofNat i) := by decide +kernel
  exact hall ⟨v, h⟩

theorem newline_not_mem_encodeChunk (a b c : UInt8) (len : ℕ) : 10 ∉ SerdeBytesVec.encodeChunk a b c len := by
  have ha := a.toNat_lt
  have hb := b.toNat_lt
  have hc := c.toNat_lt
  have hpadding : (10 : UInt8) ≠ SerdeBytesVec.padding := by decide
  rw [SerdeBytesVec.encodeChunk_eq]
  simp only [List.mem_cons, List.not_mem_nil, or_false, not_or]
  refine ⟨newline_ne_letter (by omega), newline_ne_letter (by omega), ?_, ?_⟩
  · split
    · exact newline_ne_letter (by omega)
    · exact hpadding
  · split
    · exact newline_ne_letter (by omega)
    · exact hpadding

theorem newline_not_mem_serialize (bytes : List UInt8) : 10 ∉ SerdeBytesVec.serialize bytes := by
  fun_induction SerdeBytesVec.serialize bytes with
  | case1 => exact List.not_mem_nil
  | case2 a => exact newline_not_mem_encodeChunk _ _ _ _
  | case3 a b => exact newline_not_mem_encodeChunk _ _ _ _
  | case4 a b c rest ih =>
    rw [List.mem_append, not_or]
    exact ⟨newline_not_mem_encodeChunk _ _ _ _, ih⟩

theorem takes_joined {turns : ℕ} {text : List UInt8} (h : 10 ∉ text) (hturns : text.length ≤ turns) :
    Takes (joined (upTo 10) ((text.length + (lineWidth - 1)) / lineWidth)) (cutLines turns text) text := by
  induction turns generalizing text with
  | zero =>
    obtain rfl : text = [] := List.length_eq_zero_iff.mp (by omega)
    exact Takes.pure _
  | succ turns ih =>
    rw [cutLines]
    by_cases hnil : text = []
    · subst hnil
      exact Takes.pure _
    · have hpos : 0 < text.length := List.length_pos_iff.mpr hnil
      have hcount : (text.length + (lineWidth - 1)) / lineWidth =
          ((text.drop (min text.length lineWidth)).length + (lineWidth - 1)) / lineWidth + 1 := by
        rw [List.length_drop]
        unfold lineWidth
        omega
      have hfirst : 10 ∉ text.take (min text.length lineWidth) := fun hmem => h (List.mem_of_mem_take hmem)
      have hrest : 10 ∉ text.drop (min text.length lineWidth) := fun hmem => h (List.mem_of_mem_drop hmem)
      have hshort : (text.drop (min text.length lineWidth)).length ≤ turns := by
        rw [List.length_drop]
        unfold lineWidth
        omega
      rw [if_neg hnil, hcount, joined]
      have htake := (takes_upTo hfirst).bind (f := fun line => do
          let more ← joined (upTo 10) (((text.drop (min text.length lineWidth)).length + (lineWidth - 1)) / lineWidth)
          pure (line ++ more)) ((ih hrest hshort).bind (Takes.pure _))
      rw [List.append_nil, List.take_append_drop] at htake
      exact htake

theorem takes_base64Section {label : String} (hlabel : '\n' ∉ label.toList) (bytes : List UInt8) :
    Takes (base64Section label) (pushBase64Lines label bytes) bytes := by
  have hcheck : (SerdeBytesVec.serialize (SerdeBytesVec.deserialize (SerdeBytesVec.serialize bytes)) ==
      SerdeBytesVec.serialize bytes) = true := by
    rw [SerdeBytesVec.deserialize_serialize, beq_self_eq_true]
  have htail : Takes (do
      let decoded := SerdeBytesVec.deserialize (SerdeBytesVec.serialize bytes)
      check (SerdeBytesVec.serialize decoded == SerdeBytesVec.serialize bytes)
      pure decoded) [] bytes := by
    have hpure := (takes_check hcheck).bind_nil (f := fun _ => pure (SerdeBytesVec.deserialize (SerdeBytesVec.serialize bytes)))
      (Takes.pure _)
    rwa [SerdeBytesVec.deserialize_serialize] at hpure ⊢
  have hlines := (takes_joined (newline_not_mem_serialize bytes) (Nat.le_refl _)).bind
    (f := fun text => do
      let decoded := SerdeBytesVec.deserialize text
      check (SerdeBytesVec.serialize decoded == text)
      pure decoded) htail
  rw [List.append_nil] at hlines
  exact (takes_number hlabel _).bind hlines

/-! ### The private part -/

theorem takes_sshString {text : List UInt8} (h : text.length < 2 ^ 32) : Takes sshString (putString text) text := by
  have hlength : BigEndian.ofBytes (BigEndian.toBytes 4 text.length) = text.length :=
    BigEndian.ofBytes_toBytes 4 (by omega)
  have hbytes : Takes (bytes (BigEndian.ofBytes (BigEndian.toBytes 4 text.length))) text text := by
    rw [hlength]
    exact takes_bytes rfl
  exact (takes_bytes (BigEndian.length_toBytes 4 _)).bind hbytes

theorem takes_mpint {text : List UInt8} (h : text.length < 2 ^ 32) (hshortest : isMpint text = true) :
    Takes mpint (putString text) (BigEndian.ofBytes text) := by
  have htail : Takes (do
      check (isMpint text)
      pure (BigEndian.ofBytes text)) [] (BigEndian.ofBytes text) :=
    Takes.bind_nil (takes_check hshortest) (Takes.pure _)
  have hwhole := (takes_sshString h).bind (f := fun digits => do
    check (isMpint digits)
    pure (BigEndian.ofBytes digits)) htail
  rwa [List.append_nil] at hwhole

/-- What is left without the leading zeros is as short as it can be, once the sign byte is there. -/
theorem isMpint_digits (text : List UInt8) :
    isMpint (if (text.dropWhile (· == 0)).head?.any (0x80 ≤ ·) then 0 :: text.dropWhile (· == 0)
      else text.dropWhile (· == 0)) = true := by
  cases hdigits : text.dropWhile (· == 0) with
  | nil => rfl
  | cons first rest =>
    have hfirst : first ≠ 0 := by
      have hkept := List.head?_dropWhile_not (· == 0) text
      rw [hdigits] at hkept
      simpa using hkept
    by_cases htop : 0x80 ≤ first
    · simp [isMpint, htop]
    · simp [isMpint, htop, hfirst, UInt8.not_le.mp htop]

theorem ofBytes_dropWhile (text : List UInt8) :
    BigEndian.ofBytes (text.dropWhile (· == 0)) = BigEndian.ofBytes text := by
  induction text with
  | nil => rfl
  | cons byte text ih =>
    by_cases hbyte : byte = 0
    · subst hbyte
      have hzero : (0 : UInt8).toNat = 0 := rfl
      rw [List.dropWhile_cons_of_pos (by decide), ih, BigEndian.ofBytes, hzero, Nat.zero_mul, Nat.zero_add]
    · rw [List.dropWhile_cons_of_neg (by simpa using hbyte)]

/-- Without its leading zeros and with its sign byte a number is what it was. -/
theorem takes_putMpint {text : List UInt8} (h : text.length + 1 < 2 ^ 32) :
    Takes mpint (putMpint text) (BigEndian.ofBytes text) := by
  have hle : (text.dropWhile (· == 0)).length ≤ text.length := (List.dropWhile_sublist _).length_le
  have hvalue := ofBytes_dropWhile text
  have hshortest := isMpint_digits text
  unfold putMpint
  generalize text.dropWhile (· == 0) = digits at hle hvalue hshortest
  dsimp only
  split
  · rename_i htop
    rw [if_pos htop] at hshortest
    have hstring : BigEndian.toBytes 4 (digits.length + [(0 : UInt8)].length) ++ [0] ++ digits = putString (0 :: digits) := by
      rw [putString, List.append_assoc]
      rfl
    have hzero : BigEndian.ofBytes (0 :: digits) = BigEndian.ofBytes digits := by
      have hfirst : (0 : UInt8).toNat = 0 := rfl
      rw [BigEndian.ofBytes, hfirst, Nat.zero_mul, Nat.zero_add]
    have hlength : (0 :: digits).length < 2 ^ 32 := by
      rw [List.length_cons]
      omega
    rw [hstring, ← hvalue, ← hzero]
    exact takes_mpint hlength hshortest
  · rename_i htop
    rw [if_neg htop] at hshortest
    rw [List.length_nil, Nat.add_zero, List.append_nil, ← hvalue]
    exact takes_mpint (by omega) hshortest

def KeypairData.numbers : KeypairData → Numbers
  | .rsa d p q iqmp => .rsa (BigEndian.ofBytes d.bytes) (BigEndian.ofBytes p.bytes) (BigEndian.ofBytes q.bytes)
      (BigEndian.ofBytes iqmp.bytes)
  | .ed25519 secret _ => .ed25519 secret
  | .ecdsa _ scalar _ => .ecdsa (BigEndian.ofBytes scalar)
  | .other _ => .ecdsa 0

theorem takes_mpint_bytes (m : Mpint) : Takes mpint (putString m.bytes) (BigEndian.ofBytes m.bytes) := by
  have hsmall := m.small
  exact takes_mpint (by omega) m.shortest

/-- The layout of each algorithm gives the numbers in order. -/
theorem takes_numbers {data : KeypairData} {blob : List UInt8} (h : privateBlob data = .ok blob) :
    Takes (numbers (utf8 data.algorithm)) blob data.numbers := by
  cases data with
  | rsa d p q iqmp =>
    cases h
    have htext : ([d, p, q, iqmp].flatMap fun field => putString field.bytes) =
        putString d.bytes ++ (putString p.bytes ++ (putString q.bytes ++ putString iqmp.bytes)) := by
      simp
    rw [htext, numbers, KeypairData.algorithm, if_pos rfl]
    refine Takes.bind (takes_mpint_bytes d) ?_
    refine Takes.bind (takes_mpint_bytes p) ?_
    refine Takes.bind (takes_mpint_bytes q) ?_
    exact (takes_mpint_bytes iqmp).map
  | ed25519 secret hlength =>
    cases h
    have hne : utf8 "ssh-ed25519" ≠ utf8 "ssh-rsa" := by decide +kernel
    have hsmall : secret.length < 2 ^ 32 := by omega
    rw [numbers, KeypairData.algorithm, if_neg hne, if_pos rfl]
    exact (takes_sshString hsmall).map
  | ecdsa curve scalar hlength =>
    cases h
    have hsize : curve.size ≤ 66 := by cases curve <;> decide
    have hrsa : utf8 (KeypairData.ecdsa curve scalar hlength).algorithm ≠ utf8 "ssh-rsa" := by
      cases curve <;> simp only [KeypairData.algorithm] <;> decide +kernel
    have hed : utf8 (KeypairData.ecdsa curve scalar hlength).algorithm ≠ utf8 "ssh-ed25519" := by
      cases curve <;> simp only [KeypairData.algorithm] <;> decide +kernel
    have hmem : utf8 (KeypairData.ecdsa curve scalar hlength).algorithm ∈
        [utf8 "ecdsa-sha2-nistp256", utf8 "ecdsa-sha2-nistp384", utf8 "ecdsa-sha2-nistp521"] := by
      cases curve <;> simp [KeypairData.algorithm]
    have hsmall : scalar.length + 1 < 2 ^ 32 := by omega
    rw [numbers, if_neg hrsa, if_neg hed, if_pos hmem]
    exact (takes_putMpint hsmall).map
  | other algorithm => cases h

/-- Padding fills the last block. -/
theorem pad_spec {crypto : Crypto} {random : Random} {version : Version} {blob padded : List UInt8}
    (h : pad crypto random version blob = .ok padded) :
    padded.length % aesBlock = 0 ∧ ∃ padding, padded = blob ++ padding ∧ padding.length < aesBlock := by
  have hfill : ∀ padding : List UInt8, padding.length = (aesBlock - blob.length % aesBlock) % aesBlock →
      (blob ++ padding).length % aesBlock = 0 ∧ padding.length < aesBlock := by
    intro padding hpadding
    rw [List.length_append, hpadding]
    unfold aesBlock
    omega
  unfold pad at h
  cases version with
  | v3 =>
    cases hrandom : random.padding ((aesBlock - blob.length % aesBlock) % aesBlock) with
    | none => simp [hrandom] at h
    | some padding =>
      simp only [hrandom] at h
      cases h
      obtain ⟨hblock, hshort⟩ := hfill (List.ofFn padding) List.length_ofFn
      exact ⟨hblock, _, rfl, hshort⟩
  | v2 =>
    cases h
    have hlength : ((crypto.sha1 blob).take ((aesBlock - blob.length % aesBlock) % aesBlock)).length =
        (aesBlock - blob.length % aesBlock) % aesBlock := by
      rw [List.length_take, crypto.sha1_length]
      unfold aesBlock
      omega
    obtain ⟨hblock, hshort⟩ := hfill _ hlength
    exact ⟨hblock, _, rfl, hshort⟩

/-- What `sealKey` returns: the blob, in whole blocks where it is going to be encrypted, and the input of its MAC. -/
theorem sealKey_spec {crypto : Crypto} {random : Random} {key : PrivateKey} {version : Version}
    {passphrase : Option (List UInt8)} {s : Sealed} (h : sealKey crypto random key version passphrase = .ok s) :
    protection crypto random version passphrase = .ok s.protection ∧
      (s.protection.secrets.isSome = true → s.blob.length % aesBlock = 0) ∧
      (∃ blob padding, privateBlob key.data = .ok blob ∧ s.blob = blob ++ padding ∧ padding.length < aesBlock) ∧
      s.macInput = macInput (utf8 key.data.algorithm) s.protection.encryption (utf8 key.comment) key.publicBlob s.blob := by
  unfold sealKey at h
  cases hblob : privateBlob key.data with
  | error e => simp [hblob, bind, Except.bind] at h
  | ok blob =>
    cases hprotection : protection crypto random version passphrase with
    | error e => simp [hblob, hprotection, bind, Except.bind] at h
    | ok p =>
      simp only [hblob, hprotection, bind, Except.bind, pure, Except.pure] at h
      by_cases hsecrets : p.secrets.isSome = true
      · rw [if_pos hsecrets] at h
        cases hpad : pad crypto random version blob with
        | error e => simp [hpad] at h
        | ok padded =>
          simp only [hpad] at h
          cases h
          obtain ⟨hblock, padding, hpadded, hshort⟩ := pad_spec hpad
          exact ⟨rfl, fun _ => hblock, ⟨blob, padding, rfl, hpadded, hshort⟩, rfl⟩
      · rw [if_neg hsecrets] at h
        cases h
        exact ⟨rfl, fun hsome => absurd hsome hsecrets,
          ⟨blob, [], rfl, (List.append_nil blob).symm, by decide⟩, rfl⟩

theorem readNumbers_blob {data : KeypairData} {blob padding : List UInt8} (h : privateBlob data = .ok blob)
    (hpadding : padding.length < aesBlock) : readNumbers (utf8 data.algorithm) (blob ++ padding) = some data.numbers := by
  rw [readNumbers, takes_numbers h padding]
  exact if_pos hpadding

/-! ### The file -/

theorem takes_heading (version : Version) {algorithm : List UInt8} (h : 10 ∉ algorithm) :
    Takes heading (headerLine version.header algorithm) (version, algorithm) := by
  have hline : 10 ∉ utf8 version.header ++ utf8 ": " ++ algorithm := by
    simp only [List.mem_append, not_or]
    exact ⟨⟨by cases version <;> decide +kernel, by decide⟩, h⟩
  have hother : stripStart (utf8 Version.v3.header ++ utf8 ": ") (utf8 Version.v2.header ++ utf8 ": " ++ algorithm) = none := by
    apply if_neg
    rw [List.isPrefixOf_iff_prefix]
    intro hstart
    have hsame := List.prefix_of_prefix_length_le hstart (List.prefix_append _ _) (by decide +kernel)
    have hnot : ¬ utf8 Version.v3.header ++ utf8 ": " <+: utf8 Version.v2.header ++ utf8 ": " := by decide +kernel
    exact hnot hsame
  rw [headerLine, heading, ← List.append_nil (utf8 version.header ++ utf8 ": " ++ algorithm ++ [10])]
  refine Takes.bind (takes_upTo hline) ?_
  cases version with
  | v3 =>
    rw [stripStart_append]
    exact Takes.pure _
  | v2 =>
    rw [hother, stripStart_append]
    exact Takes.pure _

/-- The reader derives the keys that the writer did. -/
theorem takes_keyDerivation {crypto : Crypto} {random : Random} {version : Version} {passphrase : Option (List UInt8)}
    {p : Protection} (h : protection crypto random version passphrase = .ok p) {given : List UInt8}
    (hgiven : ∀ pw, passphrase = some pw → given = pw) :
    Takes (keyDerivation crypto version p.encryption given) p.kdfLines p.secrets := by
  have hne : utf8 "aes256-cbc" ≠ utf8 "none" := by decide +kernel
  unfold protection at h
  cases passphrase with
  | none =>
    cases h
    unfold keyDerivation
    rw [if_pos rfl]
    exact Takes.pure _
  | some pw =>
    obtain rfl := hgiven pw rfl
    cases version with
    | v2 =>
      cases h
      rw [keyDerivation, if_neg hne, if_pos rfl]
      exact Takes.pure _
    | v3 =>
      cases hsalt : random.salt with
      | none => simp [hsalt] at h
      | some salt =>
        cases hderive : deriveV3 crypto argon2Memory argon2Passes argon2Parallelism given (List.ofFn salt) with
        | none =>
          simp only [hsalt, hderive] at h
          cases h
        | some secrets =>
          simp only [hsalt, hderive] at h
          cases h
          have hkind : 10 ∉ utf8 "Argon2id" := by decide +kernel
          rw [keyDerivation, if_neg hne, if_pos rfl]
          simp only [List.append_assoc]
          refine Takes.bind (takes_field (by decide) hkind) ?_
          refine Takes.bind_nil (takes_check (beq_self_eq_true _)) ?_
          refine Takes.bind (takes_number (by decide) _) ?_
          refine Takes.bind (takes_number (by decide) _) ?_
          refine Takes.bind (takes_number (by decide) _) ?_
          rw [← List.append_nil (headerLine "Argon2-Salt" _)]
          refine Takes.bind (takes_field (by decide) (newline_not_mem_hex _)) ?_
          rw [unhex_hex]
          refine Takes.bind_nil (takes_lift _) ?_
          rw [hderive]
          exact Takes.bind_nil (takes_lift _) (Takes.pure _)

/-- The cipher takes back what it did to whole blocks. -/
def Crypto.Ideal (crypto : Crypto) : Prop := ∀ key iv blob, key.length = 32 → iv.length = 16 →
  blob.length % aesBlock = 0 → crypto.decrypt key iv (crypto.encrypt key iv blob) = blob

/-- What protects the private part has a name of few letters and keys of the size the cipher takes. -/
structure Protection.Fits (p : Protection) : Prop where
  encryption : p.encryption = utf8 "none" ∨ p.encryption = utf8 "aes256-cbc"
  secrets : ∀ s ∈ p.secrets, s.cipherKey.length = 32 ∧ s.iv.length = 16

theorem protection_fits {crypto : Crypto} {random : Random} {version : Version} {passphrase : Option (List UInt8)}
    {p : Protection} (h : protection crypto random version passphrase = .ok p) : p.Fits := by
  unfold protection at h
  cases passphrase with
  | none =>
    cases h
    exact ⟨.inl rfl, fun s hs => by simp at hs⟩
  | some pw =>
    cases version with
    | v2 =>
      cases h
      refine ⟨.inr rfl, fun s hs => ?_⟩
      obtain rfl := Option.some.inj hs
      have hkey : (crypto.sha1 ([0, 0, 0, 0] ++ pw) ++ (crypto.sha1 ([0, 0, 0, 1] ++ pw)).take 12).length = 32 := by
        rw [List.length_append, List.length_take, crypto.sha1_length, crypto.sha1_length]
        rfl
      exact ⟨hkey, List.length_replicate⟩
    | v3 =>
      cases hsalt : random.salt with
      | none => simp [hsalt] at h
      | some salt =>
        cases hout : crypto.argon2 argon2Memory argon2Passes argon2Parallelism pw (List.ofFn salt) with
        | none =>
          simp only [hsalt, deriveV3, hout, Option.map_none] at h
          cases h
        | some out =>
          have hlength := crypto.argon2_length _ _ _ _ _ out hout
          simp only [hsalt, deriveV3, hout, Option.map_some] at h
          cases h
          refine ⟨.inr rfl, fun s hs => ?_⟩
          obtain rfl := Option.some.inj hs
          simp only [List.length_take, List.length_drop]
          omega

theorem decrypted_encrypted {crypto : Crypto} (hideal : crypto.Ideal) {blob : List UInt8} {p : Protection}
    (hfits : p.Fits) (h : p.secrets.isSome = true → blob.length % aesBlock = 0) :
    decrypted crypto (encrypted crypto blob p.secrets) p.secrets = blob := by
  cases hsecrets : p.secrets with
  | none => rfl
  | some secrets =>
    obtain ⟨hkey, hiv⟩ := hfits.secrets secrets hsecrets
    exact hideal _ _ _ hkey hiv (h (by rw [hsecrets]; rfl))

theorem newline_not_mem_algorithm {data : KeypairData} (h : data.isSupported = true) : 10 ∉ utf8 data.algorithm := by
  apply newline_not_mem_utf8
  cases data with
  | rsa d p q iqmp => exact (by decide : '\n' ∉ "ssh-rsa".toList)
  | ed25519 secret hlength => exact (by decide : '\n' ∉ "ssh-ed25519".toList)
  | ecdsa curve scalar hlength =>
    cases curve with
    | nistP256 => exact (by decide : '\n' ∉ "ecdsa-sha2-nistp256".toList)
    | nistP384 => exact (by decide : '\n' ∉ "ecdsa-sha2-nistp384".toList)
    | nistP521 => exact (by decide : '\n' ∉ "ecdsa-sha2-nistp521".toList)
  | other algorithm => cases h

theorem Protection.Fits.newline_not_mem {p : Protection} (h : p.Fits) : 10 ∉ p.encryption := by
  obtain heq | heq := h.encryption
  · rw [heq]
    decide +kernel
  · rw [heq]
    decide +kernel

def PrivateKey.file (key : PrivateKey) : File where
  algorithm := utf8 key.data.algorithm
  comment := utf8 key.comment
  publicBlob := key.publicBlob
  numbers := key.data.numbers

theorem takes_file {crypto : Crypto} (hideal : crypto.Ideal) {random : Random} {key : PrivateKey} {version : Version}
    {passphrase : Option (List UInt8)} (hsupported : key.data.isSupported = true) (hline : '\n' ∉ key.comment.toList)
    {given text : List UInt8} (hgiven : ∀ pw, passphrase = some pw → given = pw)
    (h : encode crypto random key version passphrase = .ok text) : Takes (file crypto given) text key.file := by
  unfold encode at h
  cases hsealed : sealKey crypto random key version passphrase with
  | error e => simp [hsealed, bind, Except.bind] at h
  | ok s =>
    obtain ⟨hprotection, hblock, ⟨blob, padding, hblob, hpadded, hshort⟩, hmac⟩ := sealKey_spec hsealed
    simp only [hsealed, bind, Except.bind, pure, Except.pure] at h
    cases h
    have hfits := protection_fits hprotection
    have hnumbers := readNumbers_blob hblob hshort
    rw [← hpadded] at hnumbers
    simp only [List.append_assoc]
    refine Takes.bind (takes_heading version (newline_not_mem_algorithm hsupported)) ?_
    refine Takes.bind (takes_field (by decide) hfits.newline_not_mem) ?_
    refine Takes.bind (takes_field (by decide) (newline_not_mem_utf8 hline)) ?_
    refine Takes.bind (takes_base64Section (by decide) _) ?_
    refine Takes.bind (takes_keyDerivation hprotection hgiven) ?_
    refine Takes.bind (takes_base64Section (by decide) _) ?_
    rw [← List.append_nil (headerLine "Private-MAC" _)]
    refine Takes.bind (takes_field (by decide) (newline_not_mem_hex _)) ?_
    rw [decrypted_encrypted hideal hfits hblock]
    refine Takes.bind_nil (takes_check ?_) ?_
    · rw [hmac, beq_self_eq_true]
    · rw [hnumbers]
      exact Takes.bind_nil (takes_lift _) (Takes.pure _)

theorem oneLine_newline (pair : KeyPair) : '\n' ∉ pair.key.comment.toList := by
  intro hmem
  exact absurd (pair.oneLine '\n' hmem) (by decide)

theorem read_encode {crypto : Crypto} (hideal : crypto.Ideal) {random : Random} {pair : KeyPair} {version : Version}
    {passphrase : Option (List UInt8)} {text : List UInt8} (h : pair.encode crypto random version passphrase = .ok text) :
    read crypto (passphrase.getD []) text = some pair.key.file := by
  have hgiven : ∀ pw, (passphrase.filter fun p => !p.isEmpty) = some pw → passphrase.getD [] = pw := by
    intro pw hpw
    obtain ⟨hsome, -⟩ := Option.filter_eq_some_iff.mp hpw
    rw [hsome]
    rfl
  have htakes := takes_file hideal pair.supported (oneLine_newline pair) hgiven h
  have hrun := htakes []
  rw [List.append_nil] at hrun
  rw [read, hrun]

/-- With random bytes and an Argon2 that derives keys, every key is written. -/
theorem encode_exists (crypto : Crypto) {random : Random} (pair : KeyPair) (version : Version)
    (passphrase : Option (List UInt8)) (hsalt : random.salt.isSome = true) (hpadding : ∀ n, (random.padding n).isSome = true)
    (hargon2 : ∀ pw salt, (crypto.argon2 argon2Memory argon2Passes argon2Parallelism pw salt).isSome = true) :
    ∃ text, pair.encode crypto random version passphrase = .ok text := by
  obtain ⟨salt, hsalt⟩ := Option.isSome_iff_exists.mp hsalt
  have hblob : ∃ blob, privateBlob pair.key.data = .ok blob := by
    have hsupported := pair.supported
    cases hdata : pair.key.data with
    | rsa d p q iqmp => exact ⟨_, rfl⟩
    | ed25519 secret hlength => exact ⟨_, rfl⟩
    | ecdsa curve scalar hlength => exact ⟨_, rfl⟩
    | other algorithm => rw [hdata] at hsupported; cases hsupported
  have hpad : ∀ blob, ∃ padded, pad crypto random version blob = .ok padded := by
    intro blob
    cases version with
    | v2 => exact ⟨_, rfl⟩
    | v3 =>
      obtain ⟨padding, hpadding⟩ := Option.isSome_iff_exists.mp (hpadding ((aesBlock - blob.length % aesBlock) % aesBlock))
      simp only [pad, hpadding]
      exact ⟨_, rfl⟩
  have hprotection : ∀ passphrase, ∃ p, protection crypto random version passphrase = .ok p := by
    intro passphrase
    unfold protection
    cases passphrase with
    | none => exact ⟨_, rfl⟩
    | some pw =>
      cases version with
      | v2 => exact ⟨_, rfl⟩
      | v3 =>
        obtain ⟨out, hout⟩ := Option.isSome_iff_exists.mp (hargon2 pw (List.ofFn salt))
        simp only [hsalt, deriveV3, hout, Option.map_some]
        exact ⟨_, rfl⟩
  obtain ⟨blob, hblob⟩ := hblob
  obtain ⟨p, hprotection⟩ := hprotection (passphrase.filter fun p => !p.isEmpty)
  obtain ⟨padded, hpadded⟩ := hpad blob
  unfold KeyPair.encode Ppk.encode sealKey
  simp only [hblob, hprotection, hpadded, bind, Except.bind, pure, Except.pure]
  by_cases hsecrets : p.secrets.isSome = true
  · rw [if_pos hsecrets]
    exact ⟨_, rfl⟩
  · rw [if_neg hsecrets]
    exact ⟨_, rfl⟩

/-! ### What the MAC covers -/

theorem utf8_injective {text text' : String} (h : utf8 text = utf8 text') : text = text' := by
  apply String.toByteArray_inj.mp
  rw [← String.utf8Encode_toList, ← String.utf8Encode_toList]
  exact congrArg List.toByteArray h

theorem length_putString (text : List UInt8) : (putString text).length = 4 + text.length := by
  rw [putString, List.length_append, BigEndian.length_toBytes]

theorem putString_append_inj {text text' rest rest' : List UInt8} (h : putString text ++ rest = putString text' ++ rest')
    (hlength : text.length = text'.length) : text = text' ∧ rest = rest' := by
  have hfirst := List.append_inj h (by rw [length_putString, length_putString, hlength])
  exact ⟨(List.append_inj hfirst.1 (by rw [BigEndian.length_toBytes, BigEndian.length_toBytes])).2, hfirst.2⟩

/-- The length in front of a text, as far as its four bytes hold it. -/
theorem length_mod_of_putString {text text' rest rest' : List UInt8}
    (h : putString text ++ rest = putString text' ++ rest') : text.length % 2 ^ 32 = text'.length % 2 ^ 32 := by
  rw [putString, putString, List.append_assoc, List.append_assoc] at h
  have hfirst := (List.append_inj h (by rw [BigEndian.length_toBytes, BigEndian.length_toBytes])).1
  have hboth := congrArg BigEndian.ofBytes hfirst
  rwa [BigEndian.ofBytes_toBytes_mod, BigEndian.ofBytes_toBytes_mod] at hboth

/-- The fields can be told apart, however long the comment is. -/
theorem macInput_injective {algorithm encryption comment publicBlob blob algorithm' encryption' comment' publicBlob'
    blob' : List UInt8} (h : macInput algorithm encryption comment publicBlob blob =
      macInput algorithm' encryption' comment' publicBlob' blob')
    (halgorithm : algorithm.length < 2 ^ 32 ∧ algorithm'.length < 2 ^ 32)
    (hencryption : encryption.length < 2 ^ 32 ∧ encryption'.length < 2 ^ 32)
    (hshort : publicBlob.length + blob.length < 2 ^ 32) (hshort' : publicBlob'.length + blob'.length < 2 ^ 32) :
    algorithm = algorithm' ∧ comment = comment' ∧ publicBlob = publicBlob' ∧ blob = blob' := by
  simp only [macInput, List.flatMap_cons, List.flatMap_nil, List.append_nil] at h
  obtain ⟨hfirst, h⟩ := Takes.unique (takes_sshString halgorithm.1) (takes_sshString halgorithm.2) h
  obtain ⟨-, h⟩ := Takes.unique (takes_sshString hencryption.1) (takes_sshString hencryption.2) h
  have hlength := congrArg List.length h
  simp only [List.length_append, length_putString] at hlength
  have hmod := length_mod_of_putString h
  have hcomment : comment.length = comment'.length := by omega
  obtain ⟨hthird, h⟩ := putString_append_inj h hcomment
  obtain ⟨hfourth, h⟩ := Takes.unique (takes_sshString (by omega)) (takes_sshString (by omega)) h
  have hend : putString blob ++ [] = putString blob' ++ [] := by rw [h]
  obtain ⟨hlast, -⟩ := Takes.unique (takes_sshString (by omega)) (takes_sshString (by omega)) hend
  exact ⟨hfirst, hthird, hfourth, hlast⟩

theorem length_algorithm {data : KeypairData} (h : data.isSupported = true) : (utf8 data.algorithm).length < 2 ^ 32 := by
  cases data with
  | rsa d p q iqmp => exact (by decide : (utf8 "ssh-rsa").length < 2 ^ 32)
  | ed25519 secret hlength => exact (by decide : (utf8 "ssh-ed25519").length < 2 ^ 32)
  | ecdsa curve scalar hlength =>
    cases curve with
    | nistP256 => exact (by decide : (utf8 "ecdsa-sha2-nistp256").length < 2 ^ 32)
    | nistP384 => exact (by decide : (utf8 "ecdsa-sha2-nistp384").length < 2 ^ 32)
    | nistP521 => exact (by decide : (utf8 "ecdsa-sha2-nistp521").length < 2 ^ 32)
  | other algorithm => cases h

theorem Protection.Fits.length_encryption {p : Protection} (h : p.Fits) : p.encryption.length < 2 ^ 32 := by
  obtain heq | heq := h.encryption
  · rw [heq]
    decide
  · rw [heq]
    decide

theorem length_privateBlob {data : KeypairData} {blob : List UInt8} (h : privateBlob data = .ok blob) :
    blob.length ≤ 0xFFFFFF := by
  cases data with
  | rsa d p q iqmp =>
    cases h
    have hd := d.small
    have hp := p.small
    have hq := q.small
    have hiqmp := iqmp.small
    simp only [List.flatMap_cons, List.flatMap_nil, List.length_append, length_putString, List.length_nil]
    omega
  | ed25519 secret hlength =>
    cases h
    rw [length_putString]
    omega
  | ecdsa curve scalar hlength =>
    cases h
    have hsize : curve.size ≤ 66 := by cases curve <;> decide
    have hle : (scalar.dropWhile (· == 0)).length ≤ scalar.length := (List.dropWhile_sublist _).length_le
    unfold putMpint
    generalize scalar.dropWhile (· == 0) = digits at hle
    dsimp only
    split
    · simp only [List.length_append, BigEndian.length_toBytes, List.length_singleton]
      omega
    · simp only [List.length_append, BigEndian.length_toBytes, List.length_nil]
      omega
  | other algorithm => cases h

theorem sealKey_macInput_inj {crypto crypto' : Crypto} {random random' : Random} {pair pair' : KeyPair}
    {version version' : Version} {passphrase passphrase' : Option (List UInt8)} {s s' : Sealed}
    (h : sealKey crypto random pair.key version passphrase = .ok s)
    (h' : sealKey crypto' random' pair'.key version' passphrase' = .ok s') (hmac : s.macInput = s'.macInput) :
    pair.key.data.algorithm = pair'.key.data.algorithm ∧ pair.key.comment = pair'.key.comment ∧
      pair.key.publicBlob = pair'.key.publicBlob ∧ pair.key.data.numbers = pair'.key.data.numbers := by
  obtain ⟨hprotection, -, ⟨blob, padding, hblob, hpadded, hshort⟩, hinput⟩ := sealKey_spec h
  obtain ⟨hprotection', -, ⟨blob', padding', hblob', hpadded', hshort'⟩, hinput'⟩ := sealKey_spec h'
  have hsmall := pair.key.small
  have hsmall' := pair'.key.small
  have hlength := length_privateBlob hblob
  have hlength' := length_privateBlob hblob'
  unfold aesBlock at hshort hshort'
  rw [hinput, hinput', hpadded, hpadded'] at hmac
  obtain ⟨halgorithm, hcomment, hpublic, hprivate⟩ := macInput_injective hmac
    ⟨length_algorithm pair.supported, length_algorithm pair'.supported⟩
    ⟨(protection_fits hprotection).length_encryption, (protection_fits hprotection').length_encryption⟩
    (by rw [List.length_append]; omega) (by rw [List.length_append]; omega)
  have hnumbers := readNumbers_blob hblob hshort
  rw [hprivate, halgorithm, readNumbers_blob hblob' hshort'] at hnumbers
  exact ⟨utf8_injective halgorithm, utf8_injective hcomment, hpublic, (Option.some.inj hnumbers).symm⟩

/-- Every key that is written is read back by the layout, with the passphrase it was written with; there is nothing
that keeps it from being written but a lack of random bytes or of memory for Argon2; and the MACs of keys that
differ are over texts that differ. -/
theorem reads_back {crypto : Crypto} (hideal : crypto.Ideal) (pair : KeyPair) (random : Random) (version : Version)
    (passphrase : Option (List UInt8)) :
    (∀ text, pair.encode crypto random version passphrase = .ok text →
      read crypto (passphrase.getD []) text = some pair.key.file) ∧
    (random.salt.isSome = true → (∀ n, (random.padding n).isSome = true) →
      (∀ pw salt, (crypto.argon2 argon2Memory argon2Passes argon2Parallelism pw salt).isSome = true) →
      ∃ text, pair.encode crypto random version passphrase = .ok text) ∧
    ∀ (crypto' : Crypto) (pair' : KeyPair) (random' : Random) (version' : Version) (passphrase' : Option (List UInt8))
      (s s' : Sealed), sealKey crypto random pair.key version passphrase = .ok s →
      sealKey crypto' random' pair'.key version' passphrase' = .ok s' → s.macInput = s'.macInput →
      pair.key.data.algorithm = pair'.key.data.algorithm ∧ pair.key.comment = pair'.key.comment ∧
        pair.key.publicBlob = pair'.key.publicBlob ∧ pair.key.data.numbers = pair'.key.data.numbers := by
  refine ⟨fun text h => read_encode hideal h, fun hsalt hpadding hargon2 => ?_, ?_⟩
  · exact encode_exists crypto pair version passphrase hsalt hpadding hargon2
  · intro crypto' pair' random' version' passphrase' s s' h h' hmac
    exact sealKey_macInput_inj h h' hmac

/-- HMAC over SHA-256. -/
def hmac (key text : List UInt8) : List UInt8 :=
  let key := if key.length ≤ 64 then key else Sha256.digest key
  let block := key ++ List.replicate (64 - key.length) 0
  Sha256.digest (block.map (· ^^^ 0x5c) ++ Sha256.digest (block.map (· ^^^ 0x36) ++ text))

/-! A P-256 key whose number has a zero in front and the top bit set behind it, under a passphrase. -/

def ecdsaPair : KeyPair where
  key := {
    data := .ecdsa .nistP256 ([0, 0x90] ++ (List.range 30).map fun i => UInt8.ofNat (i + 1)) (by decide)
    publicBlob := putString (utf8 "ecdsa-sha2-nistp256") ++ putString (utf8 "nistp256") ++ putString (4 ::
      (BigEndian.toBytes 32 0x243d83388ac59ecf7e7919b096ee3a8e5117c2b68939a792bbbc790161a98067 ++
        BigEndian.toBytes 32 0xb3ff5dd58934882590e212f1c163ea7490afbb9f169008bd24a927a09e8111ed))
    small := by decide
    comment := "user@example.com" }
  supported := rfl
  oneLine := Text.eq_false_of_all_not (by decide)

def ecdsaSalt : Fin 16 → UInt8 := fun i => UInt8.ofNat (16 + i)

/-- Four bytes of length, the sign byte, the number without its leading zero, and twelve bytes of padding. -/
def ecdsaBlob : List UInt8 := BigEndian.toBytes 48
  0x0000002000900102030405060708090a0b0c0d0e0f101112131415161718191a1b1c1d1e0102030405060708090a0b0c

/-- What Argon2 and AES make of them. -/
def ecdsaDerived : List UInt8 := BigEndian.toBytes 80
  0xb5c01d13f5d05bd4cacdc09f9c773d0ac85fe7fea3b9a6c0aa1fd20e5f399c3a0d8aecfb738a9ebcdd6761dbc4da504882c7f34d65c378995d7fe793bf4d5cc71d0fbdd8532480a623c97a4f635f2897

def ecdsaWritten : List UInt8 := BigEndian.toBytes 48
  0x2fdd9be57eba9fc6f494292c00bb722a9ba5e9ee18142cf7776e46ea5745d857e0f4c06f40848b79244774e26fff835d

def exchange (key iv blob : List UInt8) : List UInt8 :=
  if key = ecdsaDerived.take 32 ∧ iv = (ecdsaDerived.drop 32).take 16 then
    if blob = ecdsaBlob then ecdsaWritten else if blob = ecdsaWritten then ecdsaBlob else blob
  else blob

theorem exchange_exchange (key iv blob : List UInt8) : exchange key iv (exchange key iv blob) = blob := by
  unfold exchange
  by_cases hkeys : key = ecdsaDerived.take 32 ∧ iv = (ecdsaDerived.drop 32).take 16
  · have hne : ecdsaWritten ≠ ecdsaBlob := by decide
    simp only [if_pos hkeys]
    by_cases hblob : blob = ecdsaBlob
    · rw [if_pos hblob, if_neg hne, if_pos rfl, hblob]
    · by_cases hwritten : blob = ecdsaWritten
      · rw [if_neg hblob, if_pos hwritten, if_pos rfl, hwritten]
      · rw [if_neg hblob, if_neg hwritten, if_neg hblob, if_neg hwritten]
  · simp only [if_neg hkeys]

/-- HMAC as it is, Argon2 and AES as they are on what is asked of them here. -/
def ecdsaCrypto : Crypto where
  sha1 _ := List.replicate 20 0
  sha1_length _ := List.length_replicate
  hmacSha1 _ _ := []
  hmacSha256 := hmac
  argon2 memory passes parallelism passphrase salt := some
    (if (memory, passes, parallelism) = (8192, 13, 1) ∧ passphrase = utf8 "correct horse" ∧
      salt = List.ofFn ecdsaSalt then ecdsaDerived else List.replicate 80 0)
  argon2_length memory passes parallelism passphrase salt out hout := by
    obtain rfl := Option.some.inj hout
    split
    · exact BigEndian.length_toBytes 80 _
    · exact List.length_replicate
  encrypt := exchange
  decrypt := exchange

def ecdsaRandom : Random where
  salt := some ecdsaSalt
  padding _ := some fun i => UInt8.ofNat (i + 1)

/-- The whole file, line by line. -/
def ecdsaLines : List String := ["PuTTY-User-Key-File-3: ecdsa-sha2-nistp256", "Encryption: aes256-cbc",
  "Comment: user@example.com", "Public-Lines: 3", "AAAAE2VjZHNhLXNoYTItbmlzdHAyNTYAAAAIbmlzdHAyNTYAAABBBCQ9gziKxZ7P",
  "fnkZsJbuOo5RF8K2iTmnkru8eQFhqYBns/9d1Yk0iCWQ4hLxwWPqdJCvu58WkAi9", "JKknoJ6BEe0=", "Key-Derivation: Argon2id",
  "Argon2-Memory: 8192", "Argon2-Passes: 13", "Argon2-Parallelism: 1", "Argon2-Salt: 101112131415161718191a1b1c1d1e1f",
  "Private-Lines: 1", "L92b5X66n8b0lCksALtyKpul6e4YFCz3d25G6ldF2Ffg9MBvQISLeSRHdOJv/4Nd",
  "Private-MAC: 7304248838f13fd36c8b28220da1f9e89b424dea19bededde78444e15e642cbf"]

def ecdsaFile : List UInt8 := ecdsaLines.flatMap fun line => utf8 line ++ [10]

theorem written_ecdsa : (ecdsaPair.encode ecdsaCrypto ecdsaRandom .v3 (some (utf8 "correct horse"))).toOption =
    some ecdsaFile := by
  decide +kernel

theorem reads_back_ecdsa :
    ecdsaPair.encode ecdsaCrypto ecdsaRandom .v3 (some (utf8 "correct horse")) = .ok ecdsaFile ∧
      read ecdsaCrypto (utf8 "correct horse") ecdsaFile = some
        { algorithm := utf8 "ecdsa-sha2-nistp256"
          comment := utf8 "user@example.com"
          publicBlob := ecdsaPair.key.publicBlob
          numbers := .ecdsa 0x900102030405060708090a0b0c0d0e0f101112131415161718191a1b1c1d1e } := by
  have hideal : ecdsaCrypto.Ideal := fun key iv blob _ _ _ => exchange_exchange key iv blob
  have hencode := Fallible.ok_of_toOption written_ecdsa
  obtain ⟨hread, -, -⟩ := reads_back hideal ecdsaPair ecdsaRandom .v3 (some (utf8 "correct horse"))
  have hnumbers : ecdsaPair.key.data.numbers =
      .ecdsa 0x900102030405060708090a0b0c0d0e0f101112131415161718191a1b1c1d1e := by decide +kernel
  have hfile : ecdsaPair.key.file = { ecdsaPair.key.file with
      numbers := .ecdsa 0x900102030405060708090a0b0c0d0e0f101112131415161718191a1b1c1d1e } := by
    rw [← hnumbers]
    rfl
  exact ⟨hencode, (hread _ hencode).trans (congrArg some hfile)⟩

end UwuSsh.Ppk

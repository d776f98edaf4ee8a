/-
  The confirmed-KV key as text (cgn-router `src/cluster/watcher.rs`, `parse_kv_confirmed_key`;
  cgn-agent `src/health.rs`, the key format).

  `parseKey` follows the source on bytes: the length of the digest and its slices are byte
  offsets. It agrees with the reading by characters (`parseKey_eq`), and `parseKey_eq_some` says
  which keys are accepted. A key that the agent writes is read back. The converse fails:
  `from_str_radix` also takes upper-case digits and a leading `+`, so that a claim has many keys.
  `confirmed_keys_round_trip_iff`: an accepted key is the one the agent writes for its claim
  exactly if its digest is in lower-case digits.
-/
import Cognitora.Infer.Text
import Cognitora.Router.ConfirmedKv

namespace Cognitora.Router

open Cognitora.Core Cognitora.Agent
open Cognitora.Auth (Text isHexDigit hexValue byteOfHex digestOfBytes)
open Cognitora.Infer (byteLen slice)
open Cognitora.Lib (encodeHex)

/-! ## The parser on bytes -/

def radixValue (digits : Text) : Nat :=
  digits.foldl (fun n c => 16 * n + hexValue c) 0

def radixDigits (digits : Text) : Option UInt8 :=
  if digits ≠ [] ∧ digits.all isHexDigit = true ∧ radixValue digits < 256 then
    some (UInt8.ofNat (radixValue digits))
  else none

/-- `u8::from_str_radix(chunk, 16)`: a leading `+` is skipped, unless nothing follows it. -/
def fromStrRadix : Text → Option UInt8
  | sign :: c :: rest =>
    if sign = '+' then radixDigits (c :: rest) else radixDigits (sign :: c :: rest)
  | chunk => radixDigits chunk

/-- The rest of the loop over the digest's bytes, from byte `i` on. -/
def digestBytes (hex : Text) (i : Nat) : Nat → Option (List UInt8)
  | 0 => some []
  | k + 1 =>
    ((slice hex (i * 2) (i * 2 + 2)).bind fromStrRadix).bind fun byte =>
      (digestBytes hex (i + 1) k).map (byte :: ·)

/-- `parse_kv_confirmed_key`. -/
def parseKey (key : Text) : Option (String × Digest) :=
  if kvConfirmedPath.isPrefixOf key then
    (rsplitOnce '/' (key.drop kvConfirmedPath.length)).bind fun (nodeId, hex) =>
      if nodeId.isEmpty || byteLen hex ≠ 64 then none
      else (digestBytes hex 0 32).map fun bytes => (String.ofList nodeId, digestOfBytes bytes)
  else none

/-! ## Bytes and characters -/

theorem toNat_lt_of_isHexDigit {c : Char} (h : isHexDigit c = true) : c.toNat < 103 := by
  unfold isHexDigit at h
  obtain h | h := Bool.or_eq_true_iff.mp h
  · obtain h | h := Bool.or_eq_true_iff.mp h
    · have : c.toNat ≤ '9'.toNat := (Char.isDigit_iff_toNat.mp h).2
      exact Nat.lt_of_le_of_lt this (by decide)
    · have : c.toNat ≤ 'f'.toNat := of_decide_eq_true (Bool.and_eq_true_iff.mp h).2
      exact Nat.lt_of_le_of_lt this (by decide)
  · have : c.toNat ≤ 'F'.toNat := of_decide_eq_true (Bool.and_eq_true_iff.mp h).2
    exact Nat.lt_of_le_of_lt this (by decide)

theorem utf8Size_of_toNat_lt {c : Char} (h : c.toNat < 103) : c.utf8Size = 1 :=
  Char.utf8Size_eq_one_iff.mpr
    (UInt32.le_iff_toNat_le.mpr (Nat.le_of_lt (Nat.lt_trans h (by decide))))

theorem hexValue_lt {c : Char} (h : isHexDigit c = true) : hexValue c < 16 := by
  have hall : ∀ n < 103, isHexDigit (Char.ofNat n) = true → hexValue (Char.ofNat n) < 16 := by
    decide
  rw [← Char.ofNat_toNat c] at h ⊢
  exact hall c.toNat (by rw [Char.ofNat_toNat] at h; exact toNat_lt_of_isHexDigit h) h

theorem radixDigits_eq_some {digits : Text} {byte : UInt8} (h : radixDigits digits = some byte) :
    digits ≠ [] ∧ ∀ c ∈ digits, isHexDigit c = true := by
  unfold radixDigits at h
  split_ifs at h with hdigits
  exact ⟨hdigits.1, List.all_eq_true.mp hdigits.2.1⟩

theorem radixDigits_of_value {digits : Text} (hne : digits ≠ [])
    (hvalue : digits.all isHexDigit = true → radixValue digits < 256) :
    radixDigits digits =
      if digits.all isHexDigit = true then some (UInt8.ofNat (radixValue digits)) else none := by
  unfold radixDigits
  by_cases hall : digits.all isHexDigit = true
  · rw [if_pos ⟨hne, hall, hvalue hall⟩, if_pos hall]
  · rw [if_neg fun h => hall h.2.1, if_neg hall]

/-- On two characters the value cannot exceed a byte, so that only the digits decide. -/
theorem fromStrRadix_pair (high low : Char) : fromStrRadix [high, low] = radixByte high low := by
  rw [fromStrRadix, radixByte]
  by_cases hplus : high = '+'
  · rw [if_pos hplus, if_pos hplus, radixDigits_of_value (List.cons_ne_nil _ _)]
    · simp only [List.all_cons, List.all_nil, Bool.and_true, radixValue, List.foldl_cons,
        List.foldl_nil, Nat.mul_zero, Nat.zero_add]
    · intro hall
      have hlow := hexValue_lt (List.all_eq_true.mp hall low List.mem_cons_self)
      simp only [radixValue, List.foldl_cons, List.foldl_nil]
      omega
  · rw [if_neg hplus, if_neg hplus, radixDigits_of_value (List.cons_ne_nil _ _)]
    · simp only [List.all_cons, List.all_nil, Bool.and_true, radixValue, List.foldl_cons,
        List.foldl_nil, Nat.mul_zero, Nat.zero_add, byteOfHex]
      split <;> rfl
    · intro hall
      have hdigits := List.all_eq_true.mp hall
      have hhigh := hexValue_lt (hdigits high List.mem_cons_self)
      have hlow := hexValue_lt (hdigits low (List.mem_cons_of_mem _ List.mem_cons_self))
      simp only [radixValue, List.foldl_cons, List.foldl_nil]
      omega

theorem fromStrRadix_chars {chunk : Text} {byte : UInt8} (h : fromStrRadix chunk = some byte) :
    ∀ c ∈ chunk, c.utf8Size = 1 := by
  have hdigit : ∀ c, isHexDigit c = true → c.utf8Size = 1 :=
    fun c hc => utf8Size_of_toNat_lt (toNat_lt_of_isHexDigit hc)
  unfold fromStrRadix at h
  split at h
  · split_ifs at h with hplus
    · refine List.forall_mem_cons.mpr ⟨hplus ▸ rfl, fun c hc => ?_⟩
      exact hdigit c ((radixDigits_eq_some h).2 c hc)
    · exact fun c hc => hdigit c ((radixDigits_eq_some h).2 c hc)
  · exact fun c hc => hdigit c ((radixDigits_eq_some h).2 c hc)

theorem byteLen_of_chars {text : Text} (h : ∀ c ∈ text, c.utf8Size = 1) :
    byteLen text = text.length := by
  induction text with
  | nil => rfl
  | cons c rest ih =>
    obtain ⟨hc, hrest⟩ := List.forall_mem_cons.mp h
    rw [byteLen, hc, ih hrest, List.length_cons, Nat.add_comm]

/-- A slice of two bytes that is read as a byte is a pair of characters. -/
theorem radixByte_of_slice {before text : Text} {byte : UInt8}
    (h : (slice (before ++ text) (byteLen before) (byteLen before + 2)).bind fromStrRadix =
      some byte) :
    ∃ high low rest, text = high :: low :: rest ∧ radixByte high low = some byte ∧
      byteLen [high, low] = 2 := by
  obtain ⟨chunk, hslice, hbyte⟩ := Option.bind_eq_some_iff.mp h
  obtain ⟨rest, rfl, hlen⟩ := Cognitora.Infer.slice_eq_some hslice
  have hchars := byteLen_of_chars (fromStrRadix_chars hbyte)
  obtain ⟨high, low, rfl⟩ := List.length_eq_two.mp (hchars.symm.trans hlen)
  exact ⟨high, low, rest, rfl, fromStrRadix_pair high low ▸ hbyte, hlen⟩

theorem slice_of_radixByte (before rest : Text) {high low : Char} {byte : UInt8}
    (h : radixByte high low = some byte) :
    (slice (before ++ high :: low :: rest) (byteLen before) (byteLen before + 2)).bind
      fromStrRadix = some byte ∧ byteLen [high, low] = 2 := by
  rw [← fromStrRadix_pair] at h
  have hlen : byteLen [high, low] = 2 := byteLen_of_chars (fromStrRadix_chars h)
  have hslice := Cognitora.Infer.slice_append before [high, low] rest
  rw [hlen, List.append_assoc] at hslice
  exact ⟨Option.bind_eq_some_iff.mpr ⟨_, hslice, h⟩, hlen⟩

theorem radixBytes_cons_eq_some {high low : Char} {rest : Text} {bytes : List UInt8} :
    radixBytes (high :: low :: rest) = some bytes ↔
      ∃ byte tail, radixByte high low = some byte ∧ radixBytes rest = some tail ∧
        byte :: tail = bytes := by
  rw [radixBytes]
  cases radixByte high low with
  | none => simp
  | some byte =>
    cases radixBytes rest with
    | none => simp
    | some tail => simp

theorem digestBytes_succ_eq_some {hex : Text} {i k : Nat} {bytes : List UInt8} :
    digestBytes hex i (k + 1) = some bytes ↔
      ∃ byte tail, (slice hex (i * 2) (i * 2 + 2)).bind fromStrRadix = some byte ∧
        digestBytes hex (i + 1) k = some tail ∧ byte :: tail = bytes := by
  rw [digestBytes, Option.bind_eq_some_iff]
  simp only [Option.map_eq_some_iff, exists_and_left]

theorem exists_pair_of_length (text : Text) (h : 2 ≤ text.length) :
    ∃ high low rest, text = high :: low :: rest := by
  obtain ⟨high, tail, rfl⟩ := List.exists_cons_of_length_pos (l := text) (by omega)
  rw [List.length_cons] at h
  obtain ⟨low, rest, rfl⟩ := List.exists_cons_of_length_pos (l := tail) (by omega)
  exact ⟨high, low, rest, rfl⟩

/-- The loop over byte slices reads `k` more bytes exactly if the characters left are `k` pairs
    that can be read. -/
theorem digestBytes_iff_radixBytes (k i : Nat) (before : Text) (hbefore : byteLen before = i * 2)
    (text : Text) (bytes : List UInt8) :
    (byteLen text = k * 2 ∧ digestBytes (before ++ text) i k = some bytes) ↔
      (text.length = k * 2 ∧ radixBytes text = some bytes) := by
  induction k generalizing i before text bytes with
  | zero =>
    have hempty : byteLen text = 0 ↔ text = [] := by
      constructor
      · intro h
        by_contra hne
        have := Cognitora.Infer.byteLen_pos hne
        omega
      · intro h
        rw [h]
        rfl
    rw [Nat.zero_mul, hempty, List.length_eq_zero_iff]
    refine and_congr_right fun h => ?_
    rw [h]
    rfl
  | succ k ih =>
    -- the boundary after the next pair
    have hnext : ∀ {high low : Char}, byteLen [high, low] = 2 →
        byteLen (before ++ [high, low]) = (i + 1) * 2 := by
      intro high low hlen
      rw [Cognitora.Infer.byteLen_append, hbefore, hlen]
      omega
    have hsplit : ∀ (high low : Char) (rest : Text),
        before ++ high :: low :: rest = before ++ [high, low] ++ rest := by simp
    constructor
    · rintro ⟨hlen, hbytes⟩
      obtain ⟨byte, tail, hbyte, htail, rfl⟩ := digestBytes_succ_eq_some.mp hbytes
      rw [← hbefore] at hbyte
      obtain ⟨high, low, rest, rfl, hpair, hsize⟩ := radixByte_of_slice hbyte
      have hrest : byteLen rest = k * 2 := by
        have := Cognitora.Infer.byteLen_append [high, low] rest
        simp only [List.cons_append, List.nil_append] at this
        omega
      rw [hsplit] at htail
      obtain ⟨hlength, hradix⟩ := (ih (i + 1) _ (hnext hsize) rest tail).mp ⟨hrest, htail⟩
      refine ⟨?_, radixBytes_cons_eq_some.mpr ⟨byte, tail, hpair, hradix, rfl⟩⟩
      rw [List.length_cons, List.length_cons]
      omega
    · rintro ⟨hlength, hradix⟩
      obtain ⟨high, low, rest, rfl⟩ := exists_pair_of_length text (by omega)
      obtain ⟨byte, tail, hpair, htail, rfl⟩ := radixBytes_cons_eq_some.mp hradix
      obtain ⟨hbyte, hsize⟩ := slice_of_radixByte before rest hpair
      rw [hbefore] at hbyte
      rw [List.length_cons, List.length_cons] at hlength
      obtain ⟨hrest, hloop⟩ := (ih (i + 1) _ (hnext hsize) rest tail).mpr ⟨by omega, htail⟩
      refine ⟨?_, digestBytes_succ_eq_some.mpr
        ⟨byte, tail, hbyte, hsplit high low rest ▸ hloop, rfl⟩⟩
      have := Cognitora.Infer.byteLen_append [high, low] rest
      simp only [List.cons_append, List.nil_append] at this
      omega

theorem digestBytes_guarded (hex : Text) :
    (if byteLen hex ≠ 64 then none else digestBytes hex 0 32) =
      (if hex.length ≠ 64 then none else radixBytes hex) := by
  have hread := digestBytes_iff_radixBytes 32 0 [] rfl hex
  rw [List.nil_append] at hread
  ext bytes
  rw [ite_eq_iff, ite_eq_iff]
  simpa using hread bytes

/-- Reading the digest by bytes or by pairs of characters is the same. -/
theorem parseKey_eq (key : Text) : parseKey key = parseKvConfirmedKey key := by
  unfold parseKey parseKvConfirmedKey
  cases rsplitOnce '/' (key.drop kvConfirmedPath.length) with
  | none => rfl
  | some parts =>
    obtain ⟨nodeId, hex⟩ := parts
    have hmap := congrArg (Option.map fun bytes => (String.ofList nodeId, digestOfBytes bytes))
      (digestBytes_guarded hex)
    rw [apply_ite (Option.map _), apply_ite (Option.map _)] at hmap
    cases hid : nodeId.isEmpty with
    | true => simp only [Option.bind_some, hid, Bool.true_or, if_true]
    | false =>
      simp only [Option.bind_some, hid, Bool.false_or, decide_eq_true_eq]
      exact if_congr Iff.rfl hmap rfl

/-! ## Which keys are accepted -/

theorem rsplitOnce_eq_some {c : Char} {text front back : Text}
    (h : rsplitOnce c text = some (front, back)) : text = front ++ c :: back := by
  unfold rsplitOnce at h
  have hsplit := List.takeWhile_append_dropWhile (p := fun x => decide (x ≠ c))
    (l := text.reverse)
  have hhead := List.head?_dropWhile_not (fun x => decide (x ≠ c)) text.reverse
  cases hdrop : text.reverse.dropWhile fun x => decide (x ≠ c) with
  | nil =>
    simp only [hdrop] at h
    exact nomatch h
  | cons x rest =>
    simp only [hdrop, Option.some.injEq, Prod.mk.injEq] at h
    simp only [hdrop, List.head?_cons, decide_eq_false_iff_not, not_not] at hhead
    have htext := congrArg List.reverse hsplit
    rw [hdrop, hhead, List.reverse_append, List.reverse_cons, List.reverse_reverse, h.1, h.2,
      List.append_assoc, List.singleton_append] at htext
    exact htext.symm

/-- Induction over the pairs of an even number of characters that can be read. -/
theorem radixBytes_induct {P : Text → List UInt8 → Prop} (nil : P [] [])
    (pair : ∀ {high low rest byte tail}, radixByte high low = some byte → P rest tail →
      P (high :: low :: rest) (byte :: tail))
    {k : Nat} {hex : Text} {bytes : List UInt8} (hlength : hex.length = k * 2)
    (h : radixBytes hex = some bytes) : P hex bytes := by
  induction k generalizing hex bytes with
  | zero =>
    rw [Nat.zero_mul, List.length_eq_zero_iff] at hlength
    rw [hlength] at h ⊢
    exact Option.some.inj h ▸ nil
  | succ k ih =>
    obtain ⟨high, low, rest, rfl⟩ := exists_pair_of_length hex (by omega)
    obtain ⟨byte, tail, hbyte, htail, rfl⟩ := radixBytes_cons_eq_some.mp h
    rw [List.length_cons, List.length_cons] at hlength
    exact pair hbyte (ih (by omega) htail)

theorem length_of_radixBytes {k : Nat} {hex : Text} {bytes : List UInt8}
    (hlength : hex.length = k * 2) (h : radixBytes hex = some bytes) : bytes.length = k := by
  have hpairs : hex.length = bytes.length * 2 := by
    refine radixBytes_induct (P := fun hex bytes => hex.length = bytes.length * 2) rfl ?_ hlength h
    intro high low rest byte tail _ hrest
    rw [List.length_cons, List.length_cons, List.length_cons]
    omega
  omega

theorem toList_digestOfBytes {bytes : List UInt8} (h : bytes.length = 32) :
    (digestOfBytes bytes).toList = bytes := by
  apply List.ext_getElem
  · simp [h]
  · intro i hi hi'
    simp [digestOfBytes, List.getElem?_eq_getElem hi']

/-- The accepted keys: the path, a node id and 64 characters that are read as a digest. -/
theorem parseKey_eq_some {key : Text} {nodeId : String} {d : Digest}
    (h : parseKey key = some (nodeId, d)) :
    ∃ hex, key = kvConfirmedPath ++ nodeId.toList ++ '/' :: hex ∧ hex.length = 64 ∧
      radixBytes hex = some d.toList := by
  rw [parseKey_eq, parseKvConfirmedKey] at h
  split_ifs at h with hpath
  obtain ⟨rest, rfl⟩ := List.isPrefixOf_iff_prefix.mp hpath
  rw [List.drop_left] at h
  cases hsplit : rsplitOnce '/' rest with
  | none =>
    rw [hsplit] at h
    cases h
  | some parts =>
    obtain ⟨front, hex⟩ := parts
    rw [hsplit] at h
    dsimp only at h
    split_ifs at h with hbad
    obtain ⟨bytes, hbytes, hpair⟩ := Option.map_eq_some_iff.mp h
    obtain ⟨hid, hdigest⟩ := Prod.mk.inj hpair
    have hlength : hex.length = 64 := by
      by_contra hne
      exact hbad (by simp [hne])
    refine ⟨hex, ?_, hlength, ?_⟩
    · rw [rsplitOnce_eq_some hsplit, ← hid, String.toList_ofList, List.append_assoc]
    · rw [hbytes, ← hdigest, toList_digestOfBytes (length_of_radixBytes hlength hbytes)]

/-! ## Lower-case digests -/

def isLowerHex (c : Char) : Bool := c.isDigit || ('a' ≤ c && c ≤ 'f')

/-- The last 64 characters of the key are digits as the agent writes them. -/
def LowerDigest (key : Text) : Prop :=
  (key.drop (key.length - 64)).all isLowerHex = true

theorem exists_digitChar {c : Char} (h : isLowerHex c = true) :
    ∃ n : Fin 16, c = Nat.digitChar n := by
  have hall : ∀ n < 103, isLowerHex (Char.ofNat n) = true →
      ∃ d : Fin 16, Char.ofNat n = Nat.digitChar d := by
    decide
  have hhex : isHexDigit c = true := Bool.or_eq_true_iff.mpr (Or.inl h)
  rw [← Char.ofNat_toNat c] at h ⊢
  exact hall c.toNat (toNat_lt_of_isHexDigit hhex) h

/-- A byte read from two lower-case digits is written with the same two. -/
theorem digitChars_of_radixByte {high low : Char} {byte : UInt8} (hhigh : isLowerHex high = true)
    (hlow : isLowerHex low = true) (h : radixByte high low = some byte) :
    [Nat.digitChar (byte.toNat / 16), Nat.digitChar (byte.toNat % 16)] = [high, low] := by
  obtain ⟨i, rfl⟩ := exists_digitChar hhigh
  obtain ⟨j, rfl⟩ := exists_digitChar hlow
  obtain ⟨hi, hival⟩ := Cognitora.Auth.hexValue_digitChar i
  obtain ⟨hj, hjval⟩ := Cognitora.Auth.hexValue_digitChar j
  rw [radixByte, if_neg (digitChar_ne_plus i), byteOfHex, hi, hj, hival, hjval, Bool.and_self,
    if_pos rfl] at h
  have hbyte : byte.toNat = 16 * i + j := by
    rw [← Option.some.inj h, UInt8.toNat_ofNat']
    omega
  have hdiv : byte.toNat / 16 = i := by omega
  have hmod : byte.toNat % 16 = j := by omega
  rw [hdiv, hmod]

theorem encodeHex_of_radixBytes {k : Nat} {hex : Text} {bytes : List UInt8}
    (hlength : hex.length = k * 2) (hlower : ∀ c ∈ hex, isLowerHex c = true)
    (h : radixBytes hex = some bytes) : encodeHex bytes = hex := by
  refine radixBytes_induct
    (P := fun hex bytes => (∀ c ∈ hex, isLowerHex c = true) → encodeHex bytes = hex)
    (fun _ => rfl) ?_ hlength h hlower
  intro high low rest byte tail hbyte ih hlower
  obtain ⟨hhigh, hlow, hrest⟩ : isLowerHex high = true ∧ isLowerHex low = true ∧
      ∀ c ∈ rest, isLowerHex c = true := by
    simpa using hlower
  have hpair := digitChars_of_radixByte hhigh hlow hbyte
  have hcons : encodeHex (byte :: tail) =
      [Nat.digitChar (byte.toNat / 16), Nat.digitChar (byte.toNat % 16)] ++ encodeHex tail :=
    rfl
  rw [hcons, hpair, ih hrest]
  rfl

theorem drop_digest (nodeId : String) {hex : Text} (hlength : hex.length = 64) :
    (kvConfirmedPath ++ nodeId.toList ++ '/' :: hex).drop
      ((kvConfirmedPath ++ nodeId.toList ++ '/' :: hex).length - 64) = hex := by
  have hkey : kvConfirmedPath ++ nodeId.toList ++ '/' :: hex =
      (kvConfirmedPath ++ nodeId.toList ++ ['/']) ++ hex := by simp
  rw [hkey]
  apply List.drop_left'
  simp only [List.length_append, hlength]
  omega

theorem key_eq_iff_lowerDigest {key : Text} {nodeId : String} {d : Digest}
    (h : parseKey key = some (nodeId, d)) :
    key = confirmedKey nodeId d.toList ↔ LowerDigest key := by
  obtain ⟨hex, rfl, hlength, hbytes⟩ := parseKey_eq_some h
  unfold LowerDigest
  rw [drop_digest nodeId hlength]
  constructor
  · intro hkey
    have hhex : hex = encodeHex d.toList :=
      (List.cons.inj (List.append_cancel_left hkey)).2
    rw [hhex, List.all_eq_true]
    exact Cognitora.Lib.forall_mem_encodeHex (by decide) _
  · intro hlower
    rw [confirmedKey, encodeHex_of_radixBytes (k := 32) hlength (List.all_eq_true.mp hlower) hbytes]

/-- A key that the agent writes is read back as its node and digest. A key that is accepted is
    the one the agent writes for what is read exactly if its digest is in lower-case digits, and
    among such keys no two are read as the same claim. -/
theorem confirmed_keys_round_trip_iff (nodeId : String) (d : Digest) :
    (nodeId ≠ "" → parseKey (confirmedKey nodeId d.toList) = some (nodeId, d)) ∧
    (∀ key, parseKey key = some (nodeId, d) →
      (key = confirmedKey nodeId d.toList ↔ LowerDigest key)) ∧
    ∀ key key', parseKey key = some (nodeId, d) → parseKey key' = some (nodeId, d) →
      LowerDigest key → LowerDigest key' → key = key' := by
  refine ⟨fun hne => parseKey_eq _ ▸ parse_confirmedKey hne d,
    fun key h => key_eq_iff_lowerDigest h, ?_⟩
  intro key key' h h' hlower hlower'
  rw [(key_eq_iff_lowerDigest h).mpr hlower, (key_eq_iff_lowerDigest h').mpr hlower']

/-- Two keys of one claim, of which the agent writes the first, and a key with signs in it. -/
theorem claim_with_two_keys :
    parseKey ("/cognitora/kv/n1/".toList ++ List.replicate 64 'a') =
      some ("n1", Vector.replicate 32 170) ∧
    parseKey ("/cognitora/kv/n1/".toList ++ List.replicate 64 'A') =
      some ("n1", Vector.replicate 32 170) ∧
    confirmedKey "n1" (Vector.replicate 32 (170 : UInt8)).toList ≠
      "/cognitora/kv/n1/".toList ++ List.replicate 64 'A' ∧
    parseKey ("/cognitora/kv/n1/".toList ++ (List.replicate 32 ['+', '7']).flatten) =
      some ("n1", Vector.replicate 32 7) := by
  decide +kernel

end Cognitora.Router

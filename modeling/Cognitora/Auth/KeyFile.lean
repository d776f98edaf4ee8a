/-
  The API-key file: the router's reader (cgn-auth `src/api_key.rs`, `parse`) and the commands
  that write it (cgn-ctl `src/key.rs`, `create` and `revoke`).

  `parse_eq`: every text is accepted, and its key map is that of the records of its lines, the
  last record of a digest first. `commands_refine`: in every run whose `create`s find nothing
  but white space after the last newline and whose `revoke`s match the lines they should, each
  command changes the key map as documented. `create` does not end the line before its own,
  and `revoke` leaves the last line without an ending, so a `create` after a `revoke` is lost;
  `revoke` compares the text of a line, so it misses upper-case hashes and plaintext keys.

  Texts are lists of characters. The hash is a parameter. A command that fails on the file
  system changes nothing and is not modelled.
-/
import Cognitora.Core.Error
import Cognitora.Core.Hash
import Cognitora.Lib.Dict
import Cognitora.Lib.Lines
import Cognitora.Lib.Run

namespace Cognitora.Auth

open Cognitora.Core Cognitora.Lib

abbrev Text := List Char

instance : LawfulBEq Text := inferInstance

/-- `char::is_whitespace`. -/
def isWhitespace (c : Char) : Bool :=
  let n := c.toNat
  (9 ≤ n && n ≤ 13) || n == 0x20 || n == 0x85 || n == 0xa0 || n == 0x1680 ||
    (0x2000 ≤ n && n ≤ 0x200a) || n == 0x2028 || n == 0x2029 || n == 0x202f || n == 0x205f ||
      n == 0x3000

/-! ## Hexadecimal digits -/

/-- `u8::is_ascii_hexdigit`. -/
def isHexDigit (c : Char) : Bool :=
  c.isDigit || ('a' ≤ c && c ≤ 'f') || ('A' ≤ c && c ≤ 'F')

def hexValue (c : Char) : Nat :=
  if c.isDigit then c.toNat - '0'.toNat
  else if 'a' ≤ c then c.toNat - 'a'.toNat + 10
  else c.toNat - 'A'.toNat + 10

/-- `u8::from_str_radix(chunk, 16)` on a chunk of two digits. -/
def byteOfHex (high low : Char) : Except String UInt8 :=
  if isHexDigit high && isHexDigit low then
    .ok (UInt8.ofNat (16 * hexValue high + hexValue low))
  else .error "invalid digit found in string"

/-- The bytes of a text of an even number of digits. -/
def decodeHex : Text → Except String (List UInt8)
  | high :: low :: rest =>
    match byteOfHex high low, decodeHex rest with
    | .ok byte, .ok bytes => .ok (byte :: bytes)
    | .error e, _ => .error e
    | _, .error e => .error e
  | _ => .ok []

/-! ## The reader -/

abbrev Store := AList fun _ : Digest => List String

/-- The token is a hash, not a plaintext key. -/
def isHash (token : Text) : Bool :=
  token.length == 64 && token.all isHexDigit

/-- The text of a line before a comment. -/
def uncomment (raw : Text) : Text :=
  raw.takeWhile (· ≠ '#')

def scopesOf (field : Option Text) : List String :=
  match field with
  | none => []
  | some s =>
    (((s.splitOn ',').map (trim isWhitespace)).filter fun t => !t.isEmpty).map String.ofList

def digestOfBytes (bytes : List UInt8) : Digest :=
  Vector.ofFn fun i : Fin 32 => bytes.getD i 0

section

variable (hash : List UInt8 → Digest)

def tokenDigest (token : Text) : Except String Digest :=
  if isHash token then (decodeHex token).map digestOfBytes else .ok (hash (utf8 token))

/-- One round of the loop of `parse`: the record of the line, if it has one. -/
def parseLine (lineno : Nat) (raw : Text) : Except Error (Option (Digest × List String)) :=
  let line := trim isWhitespace (uncomment raw)
  if line.isEmpty then .ok none
  else
    match words isWhitespace line with
    | [] => .error (.config ("api keys line " ++ toString (lineno + 1) ++ ": empty"))
    | token :: rest =>
      match tokenDigest hash token with
      | .error e =>
        .error (.config ("api keys line " ++ toString (lineno + 1) ++ ": hex: " ++ e))
      | .ok digest => .ok (some (digest, scopesOf rest.head?))

/-- The loop of `parse`, from line `lineno` on. -/
def parseLines : Nat → List Text → Store → Except Error Store
  | _, [], out => .ok out
  | lineno, raw :: rest, out =>
    match parseLine hash lineno raw with
    | .error e => .error e
    | .ok none => parseLines (lineno + 1) rest out
    | .ok (some (digest, scopes)) => parseLines (lineno + 1) rest (out.insert digest scopes)

def parse (text : Text) : Except Error Store :=
  parseLines hash 0 (lines text) ∅

end

/-! ## The commands -/

def lower (s : Text) : Text :=
  s.map Char.toLower

/-- The first word of a line, empty if there is none. -/
def firstWord (line : Text) : Text :=
  (words isWhitespace line).headD []

/-- `revoke` strikes the line. -/
def struck (sha : Text) (line : Text) : Bool :=
  (lower sha).isPrefixOf (firstWord line)

def revoke (sha : Text) (text : Text) : Text :=
  joinLines ((lines text).filter fun l => !struck sha l)

/-- The line `create` appends. -/
def keyLine (sha : Digest) (scopes : Text) : Text :=
  encodeHex sha.toList ++ ' ' :: scopes

def create (sha : Digest) (scopes : Text) (text : Text) : Text :=
  text ++ (keyLine sha scopes ++ ['\n'])

/-! ## Hexadecimal digits, read back -/

theorem hexValue_digitChar : ∀ n : Fin 16,
    isHexDigit (Nat.digitChar n) = true ∧ hexValue (Nat.digitChar n) = n := by
  decide

theorem byteOfHex_digitChar (b : UInt8) :
    byteOfHex (Nat.digitChar (b.toNat / 16)) (Nat.digitChar (b.toNat % 16)) = .ok b := by
  have hb := b.toNat_lt
  obtain ⟨hhigh, hhighValue⟩ := hexValue_digitChar ⟨b.toNat / 16, by omega⟩
  obtain ⟨hlow, hlowValue⟩ := hexValue_digitChar ⟨b.toNat % 16, by omega⟩
  dsimp only at hhigh hhighValue hlow hlowValue
  rw [byteOfHex, hhigh, hlow, hhighValue, hlowValue, Bool.and_self, if_pos rfl,
    show 16 * (b.toNat / 16) + b.toNat % 16 = b.toNat by omega, UInt8.ofNat_toNat]

theorem decodeHex_encodeHex (bytes : List UInt8) : decodeHex (encodeHex bytes) = .ok bytes := by
  induction bytes with
  | nil => rfl
  | cons b bytes ih =>
    show decodeHex (_ :: _ :: encodeHex bytes) = _
    rw [decodeHex, byteOfHex_digitChar, ih]

theorem digestOfBytes_toList (d : Digest) : digestOfBytes d.toList = d := by
  ext i hi
  simp [digestOfBytes]

theorem isHash_encodeHex (d : Digest) : isHash (encodeHex d.toList) = true := by
  have hlength : (encodeHex d.toList).length = 64 := by
    rw [length_encodeHex, Vector.length_toList]
  have hdigits : ∀ c ∈ encodeHex d.toList, isHexDigit c = true :=
    forall_mem_encodeHex (fun n => (hexValue_digitChar n).1) _
  rw [isHash, hlength, List.all_eq_true.mpr hdigits]
  rfl

/-- Digits are never refused. -/
theorem decodeHex_ok (token : Text) (h : ∀ c ∈ token, isHexDigit c = true) :
    ∃ bytes, decodeHex token = .ok bytes := by
  fun_induction decodeHex token with
  | case1 high low rest byte bytes hrest hbyte ih => exact ⟨_, rfl⟩
  | case2 high low rest e hbyte ih =>
    rw [byteOfHex, h high (by simp), h low (by simp)] at hbyte
    cases hbyte
  | case3 high low rest e hrest hbyte ih =>
    obtain ⟨bytes, hbytes⟩ := ih fun c hc => h c (by simp [hc])
    rw [hbytes] at hrest
    cases hrest
  | case4 => exact ⟨[], rfl⟩

/-! ## Records -/

section

variable {hash : List UInt8 → Digest}

theorem tokenDigest_ok (hash : List UInt8 → Digest) (token : Text) :
    ∃ digest, tokenDigest hash token = .ok digest := by
  unfold tokenDigest
  split
  · next h =>
    rw [isHash, Bool.and_eq_true, List.all_eq_true] at h
    obtain ⟨bytes, hbytes⟩ := decodeHex_ok token h.2
    exact ⟨digestOfBytes bytes, by rw [hbytes]; rfl⟩
  · exact ⟨_, rfl⟩

theorem tokenDigest_encodeHex (d : Digest) : tokenDigest hash (encodeHex d.toList) = .ok d := by
  rw [tokenDigest, if_pos (isHash_encodeHex d), decodeHex_encodeHex]
  exact congrArg Except.ok (digestOfBytes_toList d)

/-- The record of a line. -/
def record (hash : List UInt8 → Digest) (raw : Text) : Option (Digest × List String) :=
  match words isWhitespace (uncomment raw) with
  | [] => none
  | token :: rest =>
    (tokenDigest hash token).toOption.map fun digest => (digest, scopesOf rest.head?)

theorem parseLine_eq (hash : List UInt8 → Digest) (lineno : Nat) (raw : Text) :
    parseLine hash lineno raw = .ok (record hash raw) := by
  unfold parseLine record
  dsimp only
  rw [words_trim]
  cases hwords : words isWhitespace (uncomment raw) with
  | nil =>
    rw [(trim_eq_nil_iff _).mpr hwords]
    rfl
  | cons token rest =>
    obtain ⟨digest, hdigest⟩ := tokenDigest_ok hash token
    have hline : ¬ (trim isWhitespace (uncomment raw)).isEmpty = true := by
      rw [List.isEmpty_iff, trim_eq_nil_iff, hwords]
      exact List.cons_ne_nil _ _
    rw [if_neg hline]
    dsimp only
    rw [hdigest]
    rfl

theorem parseLines_eq (hash : List UInt8 → Digest) (lineno : Nat) (ls : List Text)
    (out : Store) :
    parseLines hash lineno ls out =
      .ok ((ls.filterMap (record hash)).foldl (fun m r => m.insert r.1 r.2) out) := by
  induction ls generalizing lineno out with
  | nil => rfl
  | cons raw ls ih =>
    rw [parseLines, parseLine_eq, List.filterMap_cons]
    cases record hash raw with
    | none => exact ih _ _
    | some r => exact ih _ _

/-- The records of a text. -/
def records (hash : List UInt8 → Digest) (text : Text) : List (Digest × List String) :=
  (lines text).filterMap (record hash)

/-- Every text is accepted. -/
theorem parse_eq (hash : List UInt8 → Digest) (text : Text) :
    parse hash text = .ok (ofPairs (records hash text)) :=
  parseLines_eq hash 0 (lines text) ∅

theorem record_nil (hash : List UInt8 → Digest) : record hash [] = none := by
  simp [record, uncomment]

theorem record_carriageReturn (hash : List UInt8 → Digest) (l : Text) :
    record hash (l ++ ['\r']) = record hash l := by
  have hwords : words isWhitespace (uncomment (l ++ ['\r'])) =
      words isWhitespace (uncomment l) := by
    unfold uncomment
    rw [List.takeWhile_append]
    split
    · next h =>
      rw [List.takeWhile_cons_of_pos (by decide), List.takeWhile_nil, words_concat _ (by decide),
        (List.takeWhile_prefix _).eq_of_length h]
    · rfl
  rw [record, hwords]
  rfl

/-! ## What the commands do to the records -/

/-- Only white space follows the last newline. -/
def LastBlank (text : Text) : Prop :=
  ∀ c ∈ lastPiece text, isWhitespace c = true

instance (text : Text) : Decidable (LastBlank text) :=
  List.decidableBAll _ _

/-- A text without white space or a comment sign. -/
def Plain (text : Text) : Prop :=
  ∀ c ∈ text, isWhitespace c = false ∧ c ≠ '#'

instance (text : Text) : Decidable (Plain text) :=
  List.decidableBAll _ _

/-- Hexadecimal digits are plain characters. -/
theorem plain_encodeHex (d : Digest) : Plain (encodeHex d.toList) :=
  forall_mem_encodeHex (by decide) _

theorem ne_of_whitespace {c e : Char} (hc : isWhitespace c = true)
    (he : isWhitespace e = false) : c ≠ e := by
  rintro rfl
  exact absurd hc (Bool.eq_false_iff.mp he)

theorem record_of_whitespace {l : Text} (h : ∀ c ∈ l, isWhitespace c = true) :
    record hash l = none := by
  have hwords : words isWhitespace (uncomment l) = [] :=
    (words_eq_nil_iff _).mpr fun c hc => h c ((List.takeWhile_prefix _).subset hc)
  rw [record, hwords]

theorem record_keyLine {blank scopes : Text} (hblank : ∀ c ∈ blank, isWhitespace c = true)
    (hscopes : Plain scopes) (d : Digest) :
    record hash (blank ++ keyLine d scopes) = some (d, scopesOf (some scopes)) := by
  have huncomment : uncomment (blank ++ keyLine d scopes) = blank ++ keyLine d scopes := by
    refine List.takeWhile_eq_self_iff.mpr fun c hc => ?_
    rw [keyLine, List.mem_append, List.mem_append, List.mem_cons] at hc
    rcases hc with hc | hc | rfl | hc
    · simpa using ne_of_whitespace (hblank c hc) (by decide)
    · simpa using (plain_encodeHex d c hc).2
    · rfl
    · simpa using (hscopes c hc).2
  have hhex : words isWhitespace (encodeHex d.toList) = [encodeHex d.toList] := by
    refine words_of_word (fun hnil => ?_) fun c hc => (plain_encodeHex d c hc).1
    have hhash := isHash_encodeHex d
    rw [hnil] at hhash
    cases hhash
  have hwords : words isWhitespace (blank ++ keyLine d scopes) =
      encodeHex d.toList :: words isWhitespace scopes := by
    rw [words_append_of_forall hblank, keyLine, words_append_cons _ _ (by decide), hhex]
    rfl
  have hhead : scopesOf (words isWhitespace scopes).head? = scopesOf (some scopes) := by
    by_cases hempty : scopes = []
    · rw [hempty]
      rfl
    · rw [words_of_word hempty fun c hc => (hscopes c hc).1]
      rfl
  rw [record, huncomment, hwords]
  dsimp only
  rw [tokenDigest_encodeHex, hhead]
  rfl

theorem records_create {text scopes : Text} (hblank : LastBlank text)
    (hscopes : Plain scopes) (d : Digest) :
    records hash (create d scopes text) =
      records hash text ++ [(d, scopesOf (some scopes))] := by
  have hjoin := filterMap_lines_join (record_nil hash) (record_carriageReturn hash)
  have hline : '\n' ∉ lastPiece text ++ keyLine d scopes := by
    rw [keyLine, List.mem_append, List.mem_append, List.mem_cons]
    rintro (h | h | h | h)
    · exact newline_not_mem_lastPiece text h
    · exact absurd (plain_encodeHex d _ h).1 (by decide)
    · exact absurd h (by decide)
    · exact absurd (hscopes _ h).1 (by decide)
  have hlast : (lines (lastPiece text)).filterMap (record hash) = [] := by
    have h := hjoin [lastPiece text] (by simpa using newline_not_mem_lastPiece text)
    rwa [joinLines, List.intercalate_singleton,
      List.filterMap_cons_none (record_of_whitespace hblank), List.filterMap_nil] at h
  have hkey : (lines (lastPiece text ++ (keyLine d scopes ++ ['\n']))).filterMap (record hash) =
      [(d, scopesOf (some scopes))] := by
    have h := hjoin [lastPiece text ++ keyLine d scopes, []] (by simpa using hline)
    rw [List.filterMap_cons_some (record_keyLine hblank hscopes d),
      List.filterMap_cons_none (record_nil hash), List.filterMap_nil] at h
    rw [← h]
    simp [joinLines, List.intercalate]
  obtain ⟨front, htext, hfront⟩ := exists_append_lastPiece text
  calc records hash (create d scopes text)
    _ = records hash (front ++ (lastPiece text ++ (keyLine d scopes ++ ['\n']))) := by
      rw [create, ← List.append_assoc front, ← htext]
    _ = records hash front ++ [(d, scopesOf (some scopes))] := by
      rw [records, lines_append hfront, List.filterMap_append, hkey]
      rfl
    _ = records hash (front ++ lastPiece text) ++ [(d, scopesOf (some scopes))] := by
      rw [records, records, lines_append hfront, List.filterMap_append, hlast, List.append_nil]
    _ = records hash text ++ [(d, scopesOf (some scopes))] := by
      rw [← htext]

/-- Each line with a record is struck exactly if the hash of its key starts as asked. -/
def Matches (hash : List UInt8 → Digest) (sha text : Text) : Prop :=
  ∀ l ∈ lines text, ∀ r, record hash l = some r →
    (struck sha l = true ↔ lower sha <+: encodeHex r.1.toList)

instance (hash : List UInt8 → Digest) (sha text : Text) : Decidable (Matches hash sha text) :=
  decidable_of_iff (∀ l ∈ lines text, ∀ r ∈ record hash l,
    (struck sha l = true ↔ lower sha <+: encodeHex r.1.toList)) Iff.rfl

theorem records_revoke {text sha : Text} (h : Matches hash sha text) :
    records hash (revoke sha text) =
      (records hash text).filter fun r => !(lower sha).isPrefixOf (encodeHex r.1.toList) := by
  unfold records revoke
  rw [filterMap_lines_join (record_nil hash) (record_carriageReturn hash) _ fun l hl =>
    newline_not_mem_lines (List.mem_filter.mp hl).1]
  refine filterMap_filter_of_agree _ fun l hl r hr => ?_
  have hmatch := h l hl r hr
  rw [← List.isPrefixOf_iff_prefix] at hmatch
  rw [Bool.eq_iff_iff.mpr hmatch]

/-! ## The key map -/

/-- The key map of a text: the scopes of each digest. -/
def keyMap (hash : List UInt8 → Digest) (text : Text) (d : Digest) : Option (List String) :=
  match parse hash text with
  | .error _ => none
  | .ok store => store.lookup d

theorem keyMap_eq (hash : List UInt8 → Digest) (text : Text) (d : Digest) :
    keyMap hash text d = (ofPairs (records hash text)).lookup d := by
  rw [keyMap, parse_eq]

inductive Command where
  | create (secret scopes : Text)
  | revoke (sha : Text)

namespace Command

variable (hash : List UInt8 → Digest)

def run (text : Text) : Command → Text
  | .create secret scopes => Auth.create (hash (utf8 secret)) scopes text
  | .revoke sha => Auth.revoke sha text

/-- The documented effect on the key map. -/
def Refines (text : Text) (cmd : Command) : Prop :=
  ∀ d, keyMap hash (cmd.run hash text) d = match cmd with
    | .create secret scopes =>
      if d = hash (utf8 secret) then some (scopesOf (some scopes)) else keyMap hash text d
    | .revoke sha =>
    if (lower sha).isPrefixOf (encodeHex d.toList) then none else keyMap hash text d

/-- New scopes have no white space and no comment sign. -/
def PlainScopes : Command → Prop
  | .create _ scopes => Plain scopes
  | .revoke _ => True

/-- `create` starts on a line of its own, and `revoke` strikes the lines it should. -/
def Careful (text : Text) : Command → Prop
  | .create _ _ => LastBlank text
  | .revoke sha => Matches hash sha text

variable {hash}

theorem Careful.refines {text : Text} {cmd : Command} (h : cmd.Careful hash text)
    (hplain : cmd.PlainScopes) : cmd.Refines hash text := by
  intro d
  rw [keyMap_eq, keyMap_eq]
  cases cmd with
  | create secret scopes =>
    rw [run, records_create h hplain]
    exact lookup_ofPairs_concat _ _ _
  | revoke sha =>
    rw [run, records_revoke h,
      lookup_ofPairs_filter fun e : Digest => !(lower sha).isPrefixOf (encodeHex e.toList)]
    dsimp only
    cases (lower sha).isPrefixOf (encodeHex d.toList) <;> rfl

/-- Each command of a careful run changes the key map as documented. -/
theorem commands_refine (hash : List UInt8 → Digest) (text : Text) (cmds : List Command)
    (hplain : ∀ cmd ∈ cmds, cmd.PlainScopes)
    (hcareful : Along (run hash) (Careful hash) text cmds) :
    Along (run hash) (Refines hash) text cmds :=
  (hcareful.and_of_forall hplain).mono fun _ _ h => h.2.refines h.1

/-- A generated key. -/
def secretA : Text :=
  "cgn-00000000000000000000000000000001".toList

/-- Another one. -/
def secretB : Text :=
  "cgn-00000000000000000000000000000002".toList

def digestA : Digest :=
  #v[0x81, 0xf0, 0x8e, 0x35, 0x07, 0x8a, 0x71, 0x44, 0x27, 0xa7, 0xe1, 0x74, 0x7f, 0x17, 0xfd, 0x85,
    0xd1, 0x9b, 0xf8, 0x42, 0xd1, 0x78, 0xae, 0x45, 0x23, 0x2a, 0xbe, 0x4d, 0x7e, 0x0b, 0xa2, 0x2b]

def digestB : Digest :=
  #v[0x89, 0x01, 0xcd, 0x3a, 0xe8, 0x51, 0x2e, 0x04, 0x38, 0x4d, 0x2d, 0x32, 0x35, 0x6b, 0x42, 0xc0,
    0x46, 0x18, 0xd5, 0xb7, 0x8e, 0x05, 0xbf, 0x11, 0x78, 0x3b, 0xa5, 0xe6, 0x37, 0xd4, 0x31, 0x5c]

/-- SHA-256 on the two keys. -/
def sha256Sample (b : List UInt8) : Digest :=
  if b = utf8 secretA then digestA else if b = utf8 secretB then digestB else zeroDigest

/-- Two keys are created, then the first is revoked by the start of its hash. -/
def tidyRun : List Command :=
  [.create secretA "chat".toList, .create secretB "embed".toList,
    .revoke "81F08E35078A7144".toList]

theorem commands_refine_tidyRun :
    Along (run sha256Sample) (Careful sha256Sample) [] tidyRun ∧
      Along (run sha256Sample) (Refines sha256Sample) [] tidyRun := by
  have hcareful : Along (run sha256Sample) (Careful sha256Sample) [] tidyRun := by
    refine ⟨?_, ?_, ?_, trivial⟩
    · exact (by decide : LastBlank [])
    · exact (by decide +kernel : LastBlank (run sha256Sample [] (.create secretA "chat".toList)))
    · exact (by decide +kernel : Matches sha256Sample "81F08E35078A7144".toList
        (run sha256Sample (run sha256Sample [] (.create secretA "chat".toList))
          (.create secretB "embed".toList)))
  refine ⟨hcareful, commands_refine _ _ _ ?_ hcareful⟩
  simp only [tidyRun, List.forall_mem_cons]
  exact ⟨(by decide : Plain "chat".toList), (by decide : Plain "embed".toList), trivial, by simp⟩

/-- A `revoke` that strikes no line takes off the last newline, and the next key is glued to
    the scopes of the line before. -/
theorem create_after_revoke_lost :
    ¬ ∀ (hash : List UInt8 → Digest) (text : Text) (cmds : List Command),
      (∀ cmd ∈ cmds, cmd.PlainScopes) → Along (run hash) (Refines hash) text cmds := by
  intro hall
  obtain ⟨_, _, hcreate, _⟩ := hall sha256Sample []
    [.create secretA "chat".toList, .revoke "ffff".toList, .create secretB "embed".toList] (by
      simp only [List.forall_mem_cons]
      exact ⟨(by decide : Plain "chat".toList), trivial, (by decide : Plain "embed".toList),
        by simp⟩)
  exact absurd (hcreate digestB) (by decide +kernel)

end Command

end

end Cognitora.Auth

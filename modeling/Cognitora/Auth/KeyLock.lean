/-
  Locking the API-key file (cgn-ctl `src/key.rs`, `lock`): plaintext keys are replaced by their
  hashes in place.

  `lock` takes the words of a line before it strips a comment, `parse` after. A comment sign in
  the first word of a line is therefore part of the key for `lock`: a comment line becomes a
  key of its own, and a key with a comment right after it becomes another key. A line that
  starts with a hash is written back as it is, so a carriage return at its end, which belongs to
  a last line without a newline, is taken for part of a line ending the next time.

  `record_lockLine_iff`: a line keeps its record exactly if its first word has no comment sign
  (or if the hash of the whole word is already the digest of what stands before the sign, and
  there are no scopes). `lock_idempotent_iff`: a text is locked for good exactly if no line
  that starts with a hash ends with a carriage return. `lock_neutral_iff` puts the two
  together, for all texts made of some lines.
-/
import Cognitora.Auth.KeyFile

namespace Cognitora.Auth

open Cognitora.Core Cognitora.Lib

/-- The second word of a line, empty if there is none. -/
def secondWord (line : Text) : Text :=
  (words isWhitespace line).tail.headD []

section

variable (hash : List UInt8 → Digest)

/-- What `lock` writes for a line, without the newline. -/
def lockLine (line : Text) : Text :=
  match words isWhitespace line with
  | [] => []
  | token :: rest => if isHash token then line else keyLine (hash (utf8 token)) (rest.headD [])

def lock (text : Text) : Text :=
  endLines ((lines text).map (lockLine hash))

/-- Locking keeps the record of the line. -/
def Kept (line : Text) : Prop :=
  '#' ∈ firstWord line →
    uncomment (firstWord line) ≠ [] ∧
      tokenDigest hash (uncomment (firstWord line)) = .ok (hash (utf8 (firstWord line))) ∧
        scopesOf (some (uncomment (secondWord line))) = []

end

/-- The line does not lose a carriage return to the line ending. -/
def Settled (line : Text) : Prop :=
  isHash (firstWord line) = true → line.getLast? ≠ some '\r'

/-! ## Comments and words -/

theorem mem_uncomment {l : Text} {c : Char} (h : c ∈ uncomment l) : c ∈ l ∧ c ≠ '#' := by
  refine ⟨(List.takeWhile_prefix _).subset h, ?_⟩
  simpa using List.mem_takeWhile_imp h

theorem uncomment_of_not_mem {l : Text} (h : '#' ∉ l) : uncomment l = l := by
  refine List.takeWhile_eq_self_iff.mpr fun c hc => ?_
  rw [decide_eq_true_eq]
  rintro rfl
  exact h hc

theorem uncomment_append_of_not_mem {a : Text} (h : '#' ∉ a) (b : Text) :
    uncomment (a ++ b) = a ++ uncomment b := by
  refine List.takeWhile_append_of_pos fun c hc => ?_
  rw [decide_eq_true_eq]
  rintro rfl
  exact h hc

theorem uncomment_append_of_mem {a : Text} (h : '#' ∈ a) (b : Text) :
    uncomment (a ++ b) = uncomment a := by
  unfold uncomment
  rw [List.takeWhile_append]
  split
  · next hlength =>
    have hself := (List.takeWhile_prefix _).eq_of_length hlength
    rw [← hself] at h
    exact absurd (List.mem_takeWhile_imp h) (by simp)
  · rfl

theorem uncomment_uncomment (l : Text) : uncomment (uncomment l) = uncomment l :=
  uncomment_of_not_mem fun h => (mem_uncomment h).2 rfl

theorem comment_not_mem_of_whitespace {blank : Text}
    (h : ∀ c ∈ blank, isWhitespace c = true) : '#' ∉ blank :=
  fun hc => absurd (h _ hc) (by decide)

/-- The words before a comment, by the place of the first word. -/
theorem words_uncomment {blank w rest : Text} (hblank : ∀ c ∈ blank, isWhitespace c = true)
    (hne : w ≠ []) (hw : ∀ c ∈ w, isWhitespace c = false)
    (hrest : ∀ c ∈ rest.head?, isWhitespace c = true) :
    words isWhitespace (uncomment (blank ++ (w ++ rest))) =
      if '#' ∈ w then words isWhitespace (uncomment w)
      else w :: words isWhitespace (uncomment rest) := by
  rw [uncomment_append_of_not_mem (comment_not_mem_of_whitespace hblank)]
  split
  · next hcomment =>
    rw [uncomment_append_of_mem hcomment, words_append_of_forall hblank]
  · next hcomment =>
    rw [uncomment_append_of_not_mem hcomment]
    refine words_append_word hblank hne hw fun c hc => ?_
    cases rest with
    | nil => cases hc
    | cons d rest =>
      have hd : isWhitespace d = true := hrest d rfl
      have hne : d ≠ '#' := by
        rintro rfl
        exact absurd hd (by decide)
      rw [uncomment, List.takeWhile_cons_of_pos (by simpa using hne)] at hc
      cases hc
      exact hd

/-- What is left of a word before a comment is a word, or nothing. -/
theorem words_uncomment_word {w : Text} (hw : ∀ c ∈ w, isWhitespace c = false) :
    words isWhitespace (uncomment w) = if uncomment w = [] then [] else [uncomment w] := by
  split
  · next hnil => rw [hnil, words_nil]
  · next hne => exact words_of_word hne fun c hc => hw c (mem_uncomment hc).1

/-- The scopes of a line come from a word, cut at a comment sign. -/
theorem scopesOf_uncomment (l : Text) :
    scopesOf (words isWhitespace (uncomment l)).head? =
      scopesOf (some (uncomment (firstWord l))) := by
  unfold firstWord
  cases hwords : words isWhitespace l with
  | nil =>
    have hnil : words isWhitespace (uncomment l) = [] :=
      (words_eq_nil_iff _).mpr fun c hc =>
        (words_eq_nil_iff l).mp hwords c (mem_uncomment hc).1
    rw [hnil]
    rfl
  | cons w tail =>
    obtain ⟨blank, rest, rfl, hblank, hne, hw, hrest, _⟩ := exists_words_cons hwords
    rw [words_uncomment hblank hne hw hrest, List.headD_cons]
    split
    · rw [words_uncomment_word hw]
      split
      · next hnil =>
        rw [hnil]
        rfl
      · rfl
    · next hcomment =>
      rw [uncomment_of_not_mem hcomment]
      rfl

section

variable {hash : List UInt8 → Digest}

/-! ## What locking does to a record -/

theorem not_mem_of_isHash {token : Text} (h : isHash token = true) : '#' ∉ token := by
  intro hmem
  rw [isHash, Bool.and_eq_true, List.all_eq_true] at h
  exact absurd (h.2 _ hmem) (by decide)

theorem record_uncomment (l : Text) : record hash (uncomment l) = record hash l := by
  rw [record, uncomment_uncomment]
  rfl

/-- The record of a line by its first two words. -/
theorem record_of_words {l token : Text} {tail : List Text}
    (h : words isWhitespace l = token :: tail) :
    record hash l =
      if '#' ∈ token then
        if uncomment token = [] then none
        else (tokenDigest hash (uncomment token)).toOption.map fun digest => (digest, [])
      else
        (tokenDigest hash token).toOption.map fun digest =>
          (digest, scopesOf (some (uncomment (tail.headD [])))) := by
  obtain ⟨blank, rest, rfl, hblank, hne, hw, hrest, htail⟩ := exists_words_cons h
  rw [record, words_uncomment hblank hne hw hrest]
  split
  · next hcomment =>
    split at hcomment
    · next hmem =>
      rw [if_pos hmem]
      rw [words_uncomment_word hw] at hcomment
      split at hcomment
      · next hnil => rw [if_pos hnil]
      · cases hcomment
    · cases hcomment
  · next word others hcomment =>
    split at hcomment
    · next hmem =>
      rw [if_pos hmem]
      rw [words_uncomment_word hw] at hcomment
      split at hcomment
      · cases hcomment
      · next hnonempty =>
        cases hcomment
        rw [if_neg hnonempty]
        rfl
    · next hmem =>
      cases hcomment
      rw [if_neg hmem, scopesOf_uncomment, ← htail]
      rfl

theorem record_keyLine_word {w : Text} (hw : ∀ c ∈ w, isWhitespace c = false) (d : Digest) :
    record hash (keyLine d w) = some (d, scopesOf (some (uncomment w))) := by
  have hplain : Plain (uncomment w) := fun c hc =>
    ⟨hw c (mem_uncomment hc).1, (mem_uncomment hc).2⟩
  have hcut : uncomment (keyLine d w) = uncomment (keyLine d (uncomment w)) := by
    have hfront : '#' ∉ encodeHex d.toList ++ [' '] := by
      rw [List.mem_append, List.mem_singleton]
      rintro (h | h)
      · exact (plain_encodeHex d _ h).2 rfl
      · cases h
    have hsplit : ∀ v : Text, keyLine d v = (encodeHex d.toList ++ [' ']) ++ v := by
      intro v
      simp [keyLine]
    rw [hsplit, hsplit, uncomment_append_of_not_mem hfront, uncomment_append_of_not_mem hfront,
      uncomment_uncomment]
  rw [← record_uncomment, hcut, record_uncomment]
  show record hash ([] ++ keyLine d (uncomment w)) = _
  exact record_keyLine (List.forall_mem_nil _) hplain d

theorem whitespace_of_mem_words {l w : Text} (h : w ∈ words isWhitespace l) :
    ∀ c ∈ w, isWhitespace c = false := by
  induction hn : words isWhitespace l generalizing l with
  | nil =>
    rw [hn] at h
    cases h
  | cons v tail ih =>
    obtain ⟨_, rest, _, _, _, hv, _, htail⟩ := exists_words_cons hn
    rw [hn] at h
    rcases List.mem_cons.mp h with rfl | h
    · exact hv
    · exact ih (htail ▸ h) htail

theorem whitespace_of_secondWord (l : Text) : ∀ c ∈ secondWord l, isWhitespace c = false := by
  unfold secondWord
  cases hwords : words isWhitespace l with
  | nil => simp
  | cons token tail =>
    cases tail with
    | nil => simp
    | cons w tail =>
      refine whitespace_of_mem_words (l := l) ?_
      rw [hwords]
      simp

/-- A line keeps its record exactly if its first word has no comment sign, but for collisions
    of the hash. -/
theorem record_lockLine_iff (l : Text) :
    record hash (lockLine hash l) = record hash l ↔ Kept hash l := by
  unfold Kept lockLine
  cases hwords : words isWhitespace l with
  | nil =>
    have hfirst : firstWord l = [] := by
      rw [firstWord, hwords]
      rfl
    have hblank := (words_eq_nil_iff l).mp hwords
    dsimp only
    rw [hfirst, record_nil, record_of_whitespace hblank]
    simp
  | cons token tail =>
    have hfirst : firstWord l = token := by
      rw [firstWord, hwords]
      rfl
    have hsecond : secondWord l = tail.headD [] := by
      rw [secondWord, hwords]
      rfl
    dsimp only
    rw [hfirst]
    split
    · next hhash =>
      exact iff_of_true rfl fun hmem => absurd hmem (not_mem_of_isHash hhash)
    · next hhash =>
      rw [← hsecond, record_keyLine_word (whitespace_of_secondWord l), record_of_words hwords,
        ← hsecond]
      by_cases hmem : '#' ∈ token
      · rw [if_pos hmem]
        obtain ⟨digest, hdigest⟩ := tokenDigest_ok hash (uncomment token)
        by_cases hnil : uncomment token = []
        · simp [hnil, hmem]
        · rw [if_neg hnil, hdigest, forall_prop_of_true hmem]
          simp only [Except.toOption, Option.map_some, Option.some.injEq, Prod.mk.injEq,
            Except.ok.injEq]
          rw [and_iff_right hnil, eq_comm]
      · have hdigest : tokenDigest hash token = .ok (hash (utf8 token)) := if_neg hhash
        rw [if_neg hmem, hdigest]
        simp [hmem, Except.toOption]

/-! ## Locking a text -/

theorem newline_not_mem_lockLine {l : Text} (hl : '\n' ∉ l) : '\n' ∉ lockLine hash l := by
  unfold lockLine
  cases hwords : words isWhitespace l with
  | nil => simp
  | cons token tail =>
    dsimp only
    split
    · exact hl
    · rw [keyLine, List.mem_append, List.mem_cons]
      rintro (h | h | h)
      · exact absurd (plain_encodeHex _ _ h).1 (by decide)
      · cases h
      · have hword := whitespace_of_secondWord l '\n' (by rw [secondWord, hwords]; exact h)
        exact absurd hword (by decide)

theorem newline_not_mem_lockLines (text : Text) :
    ∀ l ∈ (lines text).map (lockLine hash), '\n' ∉ l := by
  intro l hl
  obtain ⟨raw, hraw, rfl⟩ := List.mem_map.mp hl
  exact newline_not_mem_lockLine (newline_not_mem_lines hraw)

/-- The records of a locked text are those of its locked lines. -/
theorem records_lock (text : Text) :
    records hash (lock hash text) =
      (lines text).filterMap fun l => record hash (lockLine hash l) := by
  unfold records lock
  rw [lines_endLines (newline_not_mem_lockLines text), List.filterMap_map, List.filterMap_map]
  congr 1
  funext l
  show record hash (chomp (lockLine hash l ++ ['\n'])) = record hash (lockLine hash l)
  rcases chomp_line (l := lockLine hash l) with h | h
  · rw [h]
  · rw [h, record_carriageReturn, ← h]

/-- The line that is read back from a locked line. -/
def relocked (hash : List UInt8 → Digest) (l : Text) : Text :=
  lockLine hash (chomp (lockLine hash l ++ ['\n']))

theorem lock_lock (text : Text) :
    lock hash (lock hash text) = endLines ((lines text).map (relocked hash)) := by
  rw [lock, lock, lines_endLines (newline_not_mem_lockLines text), List.map_map, List.map_map]
  rfl

theorem chomp_of_getLast? {l : Text} (h : l.getLast? ≠ some '\r') : chomp (l ++ ['\n']) = l := by
  rcases chomp_line (l := l) with hl | hl
  · exact hl
  · rw [hl, List.getLast?_concat] at h
    exact absurd rfl h

theorem lockLine_of_isHash {l : Text} (h : isHash (firstWord l) = true) : lockLine hash l = l := by
  unfold firstWord at h
  unfold lockLine
  cases hwords : words isWhitespace l with
  | nil =>
    rw [hwords] at h
    cases h
  | cons token tail =>
    rw [hwords] at h
    exact if_pos h

theorem firstWord_keyLine (d : Digest) (w : Text) :
    firstWord (keyLine d w) = encodeHex d.toList := by
  have hne : encodeHex d.toList ≠ [] := by
    intro hnil
    have hhash := isHash_encodeHex d
    rw [hnil] at hhash
    cases hhash
  have hwords : words isWhitespace ([] ++ (encodeHex d.toList ++ ' ' :: w)) =
      encodeHex d.toList :: words isWhitespace (' ' :: w) := by
    refine words_append_word (List.forall_mem_nil _) hne (fun c hc => (plain_encodeHex d c hc).1) ?_
    intro c hc
    cases hc
    decide
  rw [List.nil_append] at hwords
  rw [firstWord, keyLine, hwords]
  rfl

theorem getLast?_keyLine {w : Text} (hw : ∀ c ∈ w, isWhitespace c = false) (d : Digest) :
    (keyLine d w).getLast? ≠ some '\r' := by
  intro hlast
  rw [keyLine, List.getLast?_append] at hlast
  rcases List.eq_nil_or_concat' w with rfl | ⟨v, c, rfl⟩
  · cases hlast
  · rw [← List.cons_append, List.getLast?_concat] at hlast
    cases hlast
    exact absurd (hw '\r' (by simp)) (by decide)

/-- A locked line is read back and locked to itself, unless it loses a carriage return. -/
theorem relocked_eq_iff (l : Text) : relocked hash l = lockLine hash l ↔ Settled l := by
  unfold Settled
  by_cases hhash : isHash (firstWord l) = true
  · -- the line is written back as it is
    rw [relocked, lockLine_of_isHash hhash, forall_prop_of_true hhash]
    constructor
    · intro heq hlast
      have hshort : l = chomp (l ++ ['\n']) ++ ['\r'] := by
        rcases chomp_line (l := l) with h | h
        · unfold chomp at h
          rw [List.getLast?_concat, if_pos rfl, List.dropLast_concat, if_pos hlast] at h
          have hlength := congrArg List.length h
          rw [List.length_dropLast] at hlength
          cases l with
          | nil => cases hlast
          | cons c l =>
            rw [List.length_cons] at hlength
            omega
        · exact h
      have hfirst : firstWord (chomp (l ++ ['\n'])) = firstWord l := by
        unfold firstWord
        conv_rhs => rw [hshort, words_concat _ (by decide)]
      rw [lockLine_of_isHash (by rw [hfirst]; exact hhash)] at heq
      have hlength := congrArg List.length hshort
      rw [heq, List.length_append] at hlength
      simp at hlength
    · intro hlast
      rw [chomp_of_getLast? hlast, lockLine_of_isHash hhash]
  · refine iff_of_true ?_ fun h => absurd h hhash
    unfold relocked
    have hcases : lockLine hash l = [] ∨ lockLine hash l = keyLine (hash (utf8 (firstWord l)))
        (secondWord l) := by
      unfold lockLine firstWord secondWord
      unfold firstWord at hhash
      cases hwords : words isWhitespace l with
      | nil => exact Or.inl rfl
      | cons token tail =>
        rw [hwords] at hhash
        exact Or.inr (if_neg hhash)
    rcases hcases with h | h
    · rw [h, chomp_of_getLast? (by simp)]
      simp [lockLine]
    · rw [h, chomp_of_getLast? (getLast?_keyLine (whitespace_of_secondWord l) _)]
      exact lockLine_of_isHash (by rw [firstWord_keyLine]; exact isHash_encodeHex _)

/-- A second `lock` changes nothing exactly if no line loses a carriage return. -/
theorem lock_idempotent_iff (text : Text) :
    lock hash (lock hash text) = lock hash text ↔ ∀ l ∈ lines text, Settled l := by
  have hlines : lock hash (lock hash text) = lock hash text ↔
      (lines text).map (relocked hash) = (lines text).map (lockLine hash) := by
    rw [lock_lock]
    constructor
    · refine endLines_inj ?_ (newline_not_mem_lockLines text)
      intro l hl
      obtain ⟨raw, hraw, rfl⟩ := List.mem_map.mp hl
      have hlocked : '\n' ∉ lockLine hash raw :=
        newline_not_mem_lockLine (newline_not_mem_lines hraw)
      refine newline_not_mem_lockLine fun hmem => hlocked ?_
      rcases chomp_line (l := lockLine hash raw) with h | h
      · rwa [h] at hmem
      · rw [h]
        exact List.mem_append_left _ hmem
    · intro h
      rw [h]
      rfl
  rw [hlines, List.map_inj_left]
  simp only [relocked_eq_iff]

theorem keyMap_lock {text : Text} (h : ∀ l ∈ lines text, Kept hash l) :
    keyMap hash (lock hash text) = keyMap hash text := by
  funext d
  rw [keyMap_eq, keyMap_eq, records_lock, records]
  rw [List.filterMap_congr fun l hl => (record_lockLine_iff l).mpr (h l hl)]

/-- The key map of a text of one line tells its record. -/
theorem record_of_keyMap {r s : Option (Digest × List String)}
    (h : ∀ d, (ofPairs r.toList).lookup d = (ofPairs s.toList).lookup d) : r = s := by
  have hone : ∀ (p : Digest × List String) (d : Digest),
      (ofPairs (some p).toList).lookup d = if d = p.1 then some p.2 else none := by
    intro p d
    exact lookup_ofPairs_concat [] p d
  cases r with
  | none =>
    cases s with
    | none => rfl
    | some p =>
      have hp := h p.1
      rw [hone, if_pos rfl] at hp
      cases hp
  | some p =>
    have hp := h p.1
    rw [hone, if_pos rfl] at hp
    cases s with
    | none => cases hp
    | some q =>
      rw [hone] at hp
      split at hp
      · next heq => rw [Prod.ext heq (Option.some.inj hp)]
      · cases hp

/-- Every text made of lines of `text` is locked for good and with its key map kept, exactly if
    each of the lines keeps its record and its last character. -/
theorem lock_neutral_iff (hash : List UInt8 → Digest) (text : Text) :
    (∀ t, (∀ l ∈ lines t, l ∈ lines text) →
      keyMap hash (lock hash t) = keyMap hash t ∧ lock hash (lock hash t) = lock hash t) ↔
    ∀ l ∈ lines text, Kept hash l ∧ Settled l := by
  constructor
  · intro hall l hl
    by_cases hnil : l = []
    · rw [hnil]
      exact ⟨fun h => absurd h (by simp [firstWord]),
        fun h => absurd h (by simp [firstWord, isHash])⟩
    · have hline := lines_of_line (newline_not_mem_lines hl) hnil
      obtain ⟨hmap, hidem⟩ := hall l (by rw [hline]; simpa using hl)
      rw [lock_idempotent_iff, hline] at hidem
      refine ⟨(record_lockLine_iff l).mp (record_of_keyMap fun d => ?_), hidem l (by simp)⟩
      have hone : ∀ f : Text → Option (Digest × List String), [l].filterMap f = (f l).toList := by
        intro f
        cases h : f l <;> simp [h]
      have hd := congrFun hmap d
      rwa [keyMap_eq, keyMap_eq, records_lock, records, hline, hone, hone] at hd
  · intro h t ht
    exact ⟨keyMap_lock fun l hl => (h l (ht l hl)).1,
      lock_idempotent_iff t |>.mpr fun l hl => (h l (ht l hl)).2⟩

end

/-- SHA-256 on the comment sign. -/
def sha256Comment (b : List UInt8) : Digest :=
  if b = utf8 ['#'] then
    #v[0x33, 0x43, 0x59, 0xb9, 0x0e, 0xfe, 0xd7, 0x5d, 0xa5, 0xf0, 0xad,
      0xa1, 0xd5, 0xe6, 0xb2, 0x56, 0xf4, 0xa6, 0xbd, 0x0a, 0xee, 0x7e,
      0xb3, 0x9c, 0x0f, 0x90, 0x18, 0x2a, 0x02, 0x1f, 0xfc, 0x8b]
  else zeroDigest

/-- Locking a comment makes its sign a key and its next word the scopes. -/
theorem lock_adds_key :
    ¬ ∀ (hash : List UInt8 → Digest) (text : Text),
      keyMap hash (lock hash text) = keyMap hash text ∧
        lock hash (lock hash text) = lock hash text := by
  intro hall
  have hmap := congrFun (hall sha256Comment "# admin".toList).1 (sha256Comment (utf8 ['#']))
  exact absurd hmap (by decide +kernel)

end Cognitora.Auth

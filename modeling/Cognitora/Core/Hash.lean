/-
  Prefix digests (cgn-core `src/hash.rs`): the sequence-chained hash of a token list.

  BLAKE3 is the parameter `hash`. `seqChunkBytes` is the byte string one chunk hashes; for
  one model it determines the parent digest and the tokens (`seqChunkBytes_inj`), so a
  `hash` that is injective on the strings hashed makes `hashSeqChunk` injective there.
  `hashSeqChunks_identify_prefixes`: a digest tells its position and all tokens up to it.
  Not modelled: the position-independent `hash_chunk` and `hash_chunks`.
-/
import Cognitora.Lib.Chain
import Cognitora.Lib.Text

namespace Cognitora.Core

/-- A BLAKE3 digest, `[u8; 32]`. -/
abbrev Digest : Type := Vector UInt8 32

def tokensPerChunk : Nat := 32

/-- The `[0u8; 32]` parent of a first chunk. -/
def zeroDigest : Digest := Vector.replicate 32 0

/-- `u32::to_le_bytes`. -/
def toLeBytes (t : UInt32) : List UInt8 :=
  [t.toUInt8, (t >>> 8).toUInt8, (t >>> 16).toUInt8, (t >>> 24).toUInt8]

/-- `slice::chunks`: the last chunk may be shorter. -/
def chunks {α : Type*} (n : Nat) (l : List α) : List (List α) :=
  (List.range ((l.length + (n - 1)) / n)).map fun i => (l.drop (i * n)).take n

/-- What `hash_seq_chunk` feeds to the hasher. -/
def seqChunkBytes (model : String) (parent : Digest) (tokens : List UInt32) : List UInt8 :=
  Lib.utf8 "cognitora.seq.v1\x00".toList ++ Lib.utf8 model.toList ++ [0] ++
    parent.toList ++ tokens.flatMap toLeBytes

section

variable (hash : List UInt8 → Digest) (model : String)

def hashSeqChunk (parent : Digest) (tokens : List UInt32) : Digest :=
  hash (seqChunkBytes model parent tokens)

def hashSeqChunks (tokens : List UInt32) : List Digest :=
  if tokens.isEmpty then [] else
    Lib.chain (hashSeqChunk hash model) zeroDigest (chunks tokensPerChunk tokens)

/-- The byte strings hashed by `hash_seq_chunks`. -/
def seqHashed (tokens : List UInt32) : List (List UInt8) :=
  (Lib.chainInputs (hashSeqChunk hash model) zeroDigest (chunks tokensPerChunk tokens)).map
    fun x => seqChunkBytes model x.1 x.2

end

/-- The hex digits of the first 8 bytes. -/
def short (digest : Digest) : String :=
  String.ofList (Lib.encodeHex (digest.toList.take 8))

/-! ## Short names -/

/-- A short name tells the first 8 bytes of a digest and no more. -/
theorem short_eq_iff (d e : Digest) : short d = short e ↔ d.toList.take 8 = e.toList.take 8 := by
  unfold short
  constructor
  · intro h
    have hl := congrArg String.toList h
    rw [String.toList_ofList, String.toList_ofList] at hl
    exact Lib.encodeHex_inj hl
  · intro h
    rw [h]

theorem length_short (d : Digest) : (short d).toList.length = 16 := by
  unfold short
  rw [String.toList_ofList, Lib.length_encodeHex]
  simp

/-! ## One chunk -/

theorem toLeBytes_inj {t u : UInt32} (h : toLeBytes t = toLeBytes u) : t = u := by
  simp only [toLeBytes, List.cons.injEq, and_true, ← UInt8.toNat_inj, UInt32.toNat_toUInt8,
    UInt32.toNat_shiftRight, Nat.shiftRight_eq_div_pow] at h
  obtain ⟨h0, h1, h2, h3⟩ := h
  have ht := t.toNat_lt
  have hu := u.toNat_lt
  rw [← UInt32.toNat_inj]
  simp only [UInt32.reduceToNat, Nat.reduceMod, Nat.reducePow] at h0 h1 h2 h3 ht hu
  omega

/-- The bytes hashed for a chunk determine its parent and its tokens. -/
theorem seqChunkBytes_inj (model : String) {p q : Digest} {ts us : List UInt32}
    (h : seqChunkBytes model p ts = seqChunkBytes model q us) : p = q ∧ ts = us := by
  unfold seqChunkBytes at h
  rw [List.append_assoc, List.append_assoc _ q.toList] at h
  have htail := List.append_cancel_left h
  obtain ⟨hp, ht⟩ := List.append_inj htail (by simp)
  exact ⟨Vector.toList_inj.mp hp,
    Lib.flatMap_inj (n := 4) (by decide) (fun _ => rfl) (fun _ _ => toLeBytes_inj) ht⟩

/-- Any four bytes are those of a token. -/
theorem exists_toLeBytes (b : List UInt8) (hb : b.length = 4) : ∃ t, toLeBytes t = b := by
  obtain ⟨b0, b1, b2, b3, rfl⟩ := List.length_eq_four.mp hb
  have h0 := b0.toNat_lt
  have h1 := b1.toNat_lt
  have h2 := b2.toNat_lt
  have h3 := b3.toNat_lt
  have hvalue : (UInt32.ofNat
      (b0.toNat + 256 * b1.toNat + 65536 * b2.toNat + 16777216 * b3.toNat)).toNat =
        b0.toNat + 256 * b1.toNat + 65536 * b2.toNat + 16777216 * b3.toNat := by
    rw [UInt32.toNat_ofNat']
    omega
  refine ⟨UInt32.ofNat (b0.toNat + 256 * b1.toNat + 65536 * b2.toNat + 16777216 * b3.toNat), ?_⟩
  simp only [toLeBytes, List.cons.injEq, and_true, ← UInt8.toNat_inj, UInt32.toNat_toUInt8,
    UInt32.toNat_shiftRight, Nat.shiftRight_eq_div_pow, hvalue, UInt32.reduceToNat,
    Nat.reduceMod, Nat.reducePow] at h0 h1 h2 h3 ⊢
  omega

/-! ## Chunks -/

section

variable {α : Type*} {n : Nat}

theorem length_of_mem_chunks (hn : 0 < n) {l c : List α} (hc : c ∈ chunks n l) :
    0 < c.length ∧ c.length ≤ n := by
  obtain ⟨i, hi, rfl⟩ := List.mem_map.mp hc
  have hlt := List.mem_range.mp hi
  have hmul : (i + 1) * n ≤ l.length + (n - 1) :=
    (Nat.le_div_iff_mul_le hn).mp hlt
  rw [Nat.add_mul, Nat.one_mul] at hmul
  rw [List.length_take, List.length_drop]
  omega

theorem chunks_of_le {l : List α} (hpos : 0 < l.length) (hle : l.length ≤ n) :
    chunks n l = [l] := by
  have hone : (l.length + (n - 1)) / n = 1 :=
    Nat.div_eq_of_lt_le (by omega) (by omega)
  rw [chunks, hone]
  simp [List.take_of_length_le hle]

theorem chunks_append {a : List α} (hn : 0 < n) (ha : a.length = n) (b : List α) :
    chunks n (a ++ b) = a :: chunks n b := by
  have hcount : ((a ++ b).length + (n - 1)) / n = (b.length + (n - 1)) / n + 1 := by
    rw [List.length_append, ha, show n + b.length + (n - 1) = b.length + (n - 1) + n by omega,
      Nat.add_div_right _ hn]
  rw [chunks, hcount, List.range_succ_eq_map, List.map_cons, List.map_map]
  congr 1
  · rw [Nat.zero_mul, List.drop_zero, ← ha, List.take_left]
  · refine List.map_congr_left fun i _ => ?_
    show ((a ++ b).drop ((i + 1) * n)).take n = (b.drop (i * n)).take n
    rw [Nat.add_mul, Nat.one_mul, Nat.add_comm, ← List.drop_drop, ← ha, List.drop_left]

/-- The full chunks of a list are chunks of every longer one. -/
theorem take_chunks_append (hn : 0 < n) {a : List α} (b : List α) {k : Nat}
    (hk : k * n ≤ a.length) :
    (chunks n (a ++ b)).take k = (chunks n a).take k ∧ k ≤ (chunks n a).length := by
  induction k generalizing a with
  | zero => exact ⟨rfl, Nat.zero_le _⟩
  | succ k ih =>
    rw [Nat.add_mul, Nat.one_mul] at hk
    have hfirst : (a.take n).length = n := by
      rw [List.length_take]
      omega
    obtain ⟨heq, hlen⟩ := ih (a := a.drop n) (by rw [List.length_drop]; omega)
    rw [← List.take_append_drop n a, List.append_assoc, chunks_append hn hfirst,
      chunks_append hn hfirst, List.take_succ_cons, List.take_succ_cons, heq, List.length_cons]
    exact ⟨rfl, by omega⟩

/-- The first `k` chunks are those of the first `k * n` elements. -/
theorem take_chunks (hn : 0 < n) (l : List α) (k : Nat) :
    (chunks n l).take k = chunks n (l.take (k * n)) := by
  have hcount : min k ((l.length + (n - 1)) / n) = (min (k * n) l.length + (n - 1)) / n := by
    rcases Nat.le_total (k * n) l.length with hle | hle
    · have hk : (k * n + (n - 1)) / n = k :=
        Nat.div_eq_of_lt_le (by omega) (by rw [Nat.succ_mul]; omega)
      rw [Nat.min_eq_left hle, hk]
      exact Nat.min_eq_left ((Nat.le_div_iff_mul_le hn).mpr (by omega))
    · rw [Nat.min_eq_right hle]
      refine Nat.min_eq_right (Nat.le_of_lt_succ ((Nat.div_lt_iff_lt_mul hn).mpr ?_))
      rw [Nat.succ_mul]
      omega
  unfold chunks
  rw [← List.map_take, List.take_range, hcount, List.length_take]
  refine List.map_congr_left fun i hi => ?_
  have hik : (i + 1) * n ≤ k * n := by
    rw [← hcount, List.mem_range] at hi
    exact Nat.mul_le_mul_right n (by omega)
  rw [Nat.succ_mul] at hik
  rw [List.drop_take, List.take_take, Nat.min_eq_left (by omega)]

theorem flatten_chunks (hn : 0 < n) (l : List α) : (chunks n l).flatten = l := by
  have hfirst : ∀ m, ((List.range m).map fun i => (l.drop (i * n)).take n).flatten =
      l.take (m * n) := by
    intro m
    induction m with
    | zero => simp
    | succ m ih =>
      rw [List.range_succ, List.map_append, List.flatten_append, ih, Nat.succ_mul, List.take_add]
      simp
  rw [chunks, hfirst]
  refine List.take_of_length_le ?_
  have hlt := Nat.lt_div_mul_add (a := l.length + (n - 1)) hn
  omega

/-- Lists share their first `k` chunks exactly if they share what these cover. -/
theorem take_chunks_eq_iff (hn : 0 < n) (a b : List α) (k : Nat) :
    (chunks n a).take k = (chunks n b).take k ↔ a.take (k * n) = b.take (k * n) := by
  rw [take_chunks hn, take_chunks hn]
  constructor
  · intro h
    rw [← flatten_chunks hn (a.take (k * n)), h, flatten_chunks hn]
  · intro h
    rw [h]

end

/-! ## Whole token lists -/

section

variable {hash : List UInt8 → Digest} {model : String}

theorem hashSeqChunks_eq_chain (tokens : List UInt32) :
    hashSeqChunks hash model tokens =
      Lib.chain (hashSeqChunk hash model) zeroDigest (chunks tokensPerChunk tokens) := by
  unfold hashSeqChunks
  split
  · next h =>
    rw [List.isEmpty_iff.mp h]
    rfl
  · rfl

theorem length_hashSeqChunks (hash : List UInt8 → Digest) (model : String)
    (tokens : List UInt32) :
    (hashSeqChunks hash model tokens).length =
      (tokens.length + (tokensPerChunk - 1)) / tokensPerChunk := by
  rw [hashSeqChunks_eq_chain, Lib.length_chain, chunks, List.length_map, List.length_range]

theorem hashSeqChunks_eq_nil_iff (hash : List UInt8 → Digest) (model : String)
    (tokens : List UInt32) :
    hashSeqChunks hash model tokens = [] ↔ tokens = [] := by
  rw [← List.length_eq_zero_iff, length_hashSeqChunks, ← List.length_eq_zero_iff, tokensPerChunk]
  omega

/-- Each digest is the hash of a string hashed, which is that of a chunk of 1 to 32 tokens. -/
theorem exists_of_mem_hashSeqChunks {tokens : List UInt32} {d : Digest}
    (hd : d ∈ hashSeqChunks hash model tokens) :
    ∃ parent chunk, seqChunkBytes model parent chunk ∈ seqHashed hash model tokens ∧
      hash (seqChunkBytes model parent chunk) = d ∧
        0 < chunk.length ∧ chunk.length ≤ tokensPerChunk := by
  rw [hashSeqChunks_eq_chain, Lib.mem_chain_iff_inputs] at hd
  obtain ⟨x, hx, hd⟩ := hd
  exact ⟨x.1, x.2, List.mem_map_of_mem hx, hd,
    length_of_mem_chunks (by decide) (Lib.mem_of_mem_chainInputs _ hx)⟩

theorem hashed_one (hash : List UInt8 → Digest) (model : String) {chunk : List UInt32}
    (hpos : 0 < chunk.length) (hle : chunk.length ≤ tokensPerChunk) :
    hashSeqChunks hash model chunk = [hash (seqChunkBytes model zeroDigest chunk)] ∧
      seqHashed hash model chunk = [seqChunkBytes model zeroDigest chunk] := by
  rw [hashSeqChunks_eq_chain, seqHashed, chunks_of_le hpos hle]
  exact ⟨rfl, rfl⟩

theorem hashed_two {first chunk : List UInt32} (hfirst : first.length = tokensPerChunk)
    (hpos : 0 < chunk.length) (hle : chunk.length ≤ tokensPerChunk) {d : Digest}
    (hd : hash (seqChunkBytes model zeroDigest first) = d) :
    hashSeqChunks hash model (first ++ chunk) = [d, hash (seqChunkBytes model d chunk)] ∧
      seqHashed hash model (first ++ chunk) =
        [seqChunkBytes model zeroDigest first, seqChunkBytes model d chunk] := by
  subst hd
  rw [hashSeqChunks_eq_chain, seqHashed, chunks_append (by decide) hfirst, chunks_of_le hpos hle]
  exact ⟨rfl, rfl⟩

/-- The digest of a full chunk stays where it is when tokens are added. -/
theorem hashSeqChunks_append_getElem? {a : List UInt32} (b : List UInt32) {i : Nat}
    (hi : (i + 1) * tokensPerChunk ≤ a.length) :
    ∃ d, (hashSeqChunks hash model a)[i]? = some d ∧
      (hashSeqChunks hash model (a ++ b))[i]? = some d := by
  obtain ⟨heq, hlen⟩ := take_chunks_append (n := tokensPerChunk) (by decide) b hi
  have htake : (hashSeqChunks hash model (a ++ b)).take (i + 1) =
      (hashSeqChunks hash model a).take (i + 1) := by
    rw [hashSeqChunks_eq_chain, hashSeqChunks_eq_chain, Lib.take_chain, Lib.take_chain, heq]
  have hlt : i < (hashSeqChunks hash model a).length := by
    rw [hashSeqChunks_eq_chain, Lib.length_chain]
    omega
  refine ⟨(hashSeqChunks hash model a)[i], List.getElem?_eq_getElem hlt, ?_⟩
  rw [← List.getElem?_take_of_succ, htake, List.getElem?_take_of_succ,
    List.getElem?_eq_getElem hlt]

/-- Where `hash` is injective, a digest determines the parent and the tokens of its chunk. -/
theorem hashSeqChunk_injOn {B : Set (List UInt8)} (hinj : Set.InjOn hash B) :
    Set.InjOn (Function.uncurry (hashSeqChunk hash model))
      {x | seqChunkBytes model x.1 x.2 ∈ B} := by
  intro x hx y hy heq
  obtain ⟨hp, ht⟩ := seqChunkBytes_inj model (hinj hx hy heq)
  exact Prod.ext hp ht

section

variable {t₁ t₂ : List UInt32}
  (hinj : Set.InjOn hash {b | b ∈ seqHashed hash model t₁ ∨ b ∈ seqHashed hash model t₂})
  (hzero : ∀ b, b ∈ seqHashed hash model t₁ ∨ b ∈ seqHashed hash model t₂ → hash b ≠ zeroDigest)

include hinj hzero

/-- Digests of two token lists agree where the chunks up to them do. -/
theorem getElem?_hashSeqChunks_eq_iff {i j : Nat} (hi : i < (hashSeqChunks hash model t₁).length)
    (hj : j < (hashSeqChunks hash model t₂).length) :
    (hashSeqChunks hash model t₁)[i]? = (hashSeqChunks hash model t₂)[j]? ↔
      i = j ∧ t₁.take ((i + 1) * tokensPerChunk) = t₂.take ((i + 1) * tokensPerChunk) := by
  rw [hashSeqChunks_eq_chain, Lib.length_chain] at hi hj
  rw [hashSeqChunks_eq_chain, hashSeqChunks_eq_chain,
    Lib.getElem?_chain_eq_iff (hashSeqChunk_injOn hinj) (fun x hx => hzero _ hx)
      (fun x hx => Or.inl (List.mem_map_of_mem hx)) (fun x hx => Or.inr (List.mem_map_of_mem hx))
      hi hj, take_chunks_eq_iff (by decide)]

/-- A digest identifies its position and every token up to the end of its chunk, for any salt
    and a `hash` that is injective on the strings hashed, none of which hashes to zero. -/
theorem hashSeqChunks_identify_prefixes {i j : Nat}
    (hi : i < (hashSeqChunks hash model t₁).length)
    (hj : j < (hashSeqChunks hash model t₂).length) :
    (hashSeqChunks hash model t₁)[i] = (hashSeqChunks hash model t₂)[j] ↔
      i = j ∧ t₁.take (min (32 * (i + 1)) t₁.length) = t₂.take (min (32 * (i + 1)) t₂.length) := by
  have h := getElem?_hashSeqChunks_eq_iff hinj hzero hi hj
  rw [List.getElem?_eq_getElem hi, List.getElem?_eq_getElem hj, Option.some.injEq, Nat.mul_comm,
    tokensPerChunk] at h
  have hmin : ∀ t : List UInt32, t.take (min (32 * (i + 1)) t.length) = t.take (32 * (i + 1)) :=
    fun t => List.take_eq_take_iff.mpr (by omega)
  rw [h, hmin, hmin]

end

/-- BLAKE3 of `hash_seq_chunk("m", [0; 32], 0..32)`. -/
def digestHead : Digest :=
  #v[63, 48, 184, 48, 133, 154, 179, 239, 48, 41, 1, 141, 128, 17, 23, 175,
     172, 231, 10, 249, 164, 181, 216, 65, 27, 8, 103, 129, 220, 219, 136, 1]

/-- BLAKE3 on the strings hashed for the tokens `0..33` and for `0..32` followed by 99. -/
def blake3Sample (b : List UInt8) : Digest :=
  if b = seqChunkBytes "m" zeroDigest ((List.range 32).map UInt32.ofNat) then digestHead
  else if b = seqChunkBytes "m" digestHead [32] then
    #v[50, 81, 2, 99, 140, 68, 157, 106, 255, 19, 26, 30, 114, 131, 176, 126,
       105, 192, 121, 212, 78, 147, 50, 30, 203, 76, 84, 81, 32, 127, 217, 183]
  else if b = seqChunkBytes "m" digestHead [99] then
    #v[176, 86, 132, 156, 104, 238, 131, 19, 26, 76, 60, 105, 46, 17, 114, 205,
       131, 54, 20, 82, 99, 16, 124, 199, 46, 48, 240, 230, 102, 31, 240, 98]
  else zeroDigest

/-- The tokens `0..32`, a full chunk, and one more. -/
def forked (t : UInt32) : List UInt32 :=
  (List.range 32).map UInt32.ofNat ++ [t]

theorem hashSeqChunks_identify_prefixes_forked :
    Set.InjOn blake3Sample {b | b ∈ seqHashed blake3Sample "m" (forked 32) ∨
        b ∈ seqHashed blake3Sample "m" (forked 99)} ∧
      (∀ b, b ∈ seqHashed blake3Sample "m" (forked 32) ∨
        b ∈ seqHashed blake3Sample "m" (forked 99) → blake3Sample b ≠ zeroDigest) ∧
      ∃ (hi : 1 < (hashSeqChunks blake3Sample "m" (forked 32)).length)
        (hj : 1 < (hashSeqChunks blake3Sample "m" (forked 99)).length),
        ((hashSeqChunks blake3Sample "m" (forked 32)).get ⟨1, hi⟩ =
            (hashSeqChunks blake3Sample "m" (forked 99)).get ⟨1, hj⟩ ↔
          1 = 1 ∧ (forked 32).take (min (32 * (1 + 1)) (forked 32).length) =
            (forked 99).take (min (32 * (1 + 1)) (forked 99).length)) := by
  have hkey : ∀ b ∈ seqHashed blake3Sample "m" (forked 32) ++
      seqHashed blake3Sample "m" (forked 99), blake3Sample b ≠ zeroDigest ∧
        ∀ c ∈ seqHashed blake3Sample "m" (forked 32) ++ seqHashed blake3Sample "m" (forked 99),
          blake3Sample b = blake3Sample c → b = c := by
    decide +kernel
  have hinj : Set.InjOn blake3Sample {b | b ∈ seqHashed blake3Sample "m" (forked 32) ∨
      b ∈ seqHashed blake3Sample "m" (forked 99)} := by
    intro b hb c hc
    exact (hkey b (List.mem_append.mpr hb)).2 c (List.mem_append.mpr hc)
  have hzero : ∀ b, b ∈ seqHashed blake3Sample "m" (forked 32) ∨
      b ∈ seqHashed blake3Sample "m" (forked 99) → blake3Sample b ≠ zeroDigest :=
    fun b hb => (hkey b (List.mem_append.mpr hb)).1
  have hi : 1 < (hashSeqChunks blake3Sample "m" (forked 32)).length := by decide +kernel
  have hj : 1 < (hashSeqChunks blake3Sample "m" (forked 99)).length := by decide +kernel
  exact ⟨hinj, hzero, hi, hj, hashSeqChunks_identify_prefixes hinj hzero hi hj⟩

/-- How far the digests of `t` stay among the digests of the prompts: the longest run of
    leading chunks that `t` shares with one of them. `hash` is injective on the strings hashed
    for `t` and the prompts, and none of them hashes to the zero digest. -/
theorem length_takeWhile_hashSeqChunks {prompts : List (List UInt32)} {t : List UInt32}
    (hinj : Set.InjOn hash {b | ∃ q ∈ t :: prompts, b ∈ seqHashed hash model q})
    (hzero : ∀ q ∈ t :: prompts, ∀ b ∈ seqHashed hash model q, hash b ≠ zeroDigest)
    (p : Digest → Bool)
    (hp : ∀ d, p d = true ↔ ∃ q ∈ prompts, d ∈ hashSeqChunks hash model q) :
    ((hashSeqChunks hash model t).takeWhile p).length =
      Lib.maxOver (fun q => Lib.commonLen (chunks tokensPerChunk t) (chunks tokensPerChunk q))
        prompts := by
  have hmem : ∀ q ∈ t :: prompts, ∀ x ∈ Lib.chainInputs (hashSeqChunk hash model) zeroDigest
      (chunks tokensPerChunk q), seqChunkBytes model x.1 x.2 ∈
        {b | ∃ q ∈ t :: prompts, b ∈ seqHashed hash model q} :=
    fun q hq x hx => ⟨q, hq, List.mem_map_of_mem hx⟩
  have hseed : ∀ x ∈ {x : Digest × List UInt32 | seqChunkBytes model x.1 x.2 ∈
      {b | ∃ q ∈ t :: prompts, b ∈ seqHashed hash model q}},
      Function.uncurry (hashSeqChunk hash model) x ≠ zeroDigest := by
    rintro x ⟨q, hq, hx⟩
    exact hzero q hq _ hx
  have hbs : ∀ b ∈ prompts.map (chunks tokensPerChunk), ∀ x ∈
      Lib.chainInputs (hashSeqChunk hash model) zeroDigest b, seqChunkBytes model x.1 x.2 ∈
        {b | ∃ q ∈ t :: prompts, b ∈ seqHashed hash model q} := by
    intro b hb
    obtain ⟨q, hq, rfl⟩ := List.mem_map.mp hb
    exact hmem q (List.mem_cons_of_mem _ hq)
  rw [hashSeqChunks_eq_chain, Lib.length_takeWhile_chain (hashSeqChunk_injOn hinj) hseed
    (hmem t List.mem_cons_self) hbs p (by simpa [hashSeqChunks_eq_chain] using hp)]
  unfold Lib.maxOver
  rw [List.map_map]
  rfl

end

end Cognitora.Core

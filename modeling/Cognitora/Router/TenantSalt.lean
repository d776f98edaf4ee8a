/-
  Prefix digests under tenant isolation (cgn-router `src/routing/selector.rs`, `prefix_salt`;
  cgn-core `src/hash.rs`).

  The salt of a tenant is the model name, a NUL byte and the tenant; the hash of a chunk reads
  the salt, a NUL byte, the parent digest and the tokens, with no lengths between them.
  `tenants_apart_iff`: no digest under one salt is one under the other, for any token lists
  and any hash that is injective on the strings hashed and never zero, exactly if the salts
  differ and none of them continues the other with a NUL byte and more, in all a multiple of
  4 and at most 124 bytes: so much can be read as parent and tokens. `not_confusable_of_no_nul`:
  names without NUL are safe.
-/
import Cognitora.Core.PrefixClaims

namespace Cognitora.Router

open Cognitora.Core Cognitora.Lib

/-- Build the digest salt. An empty tenant keeps the bare model name. -/
def prefixSalt (kvTenantIsolation : Bool) (model tenant : String) : String :=
  if tenant.isEmpty || !kvTenantIsolation then model else model ++ "\x00" ++ tenant

/-- The salt `t` is `s`, or continues it by what can be read as a parent and tokens. -/
def Continues (s t : List UInt8) : Prop :=
  s = t ∨ ∃ more, t = s ++ 0 :: more ∧ 4 ∣ more.length + 1 ∧ more.length + 1 ≤ 124

/-- Chunks under the two salts can be hashed from the same bytes. -/
def Confusable (s t : String) : Prop :=
  Continues (utf8 s.toList) (utf8 t.toList) ∨ Continues (utf8 t.toList) (utf8 s.toList)

/-- What is assumed of BLAKE3 on the strings it hashes. -/
structure Sound (hash : List UInt8 → Digest) (hashed : Set (List UInt8)) : Prop where
  inj : Set.InjOn hash hashed
  nonzero : ∀ b ∈ hashed, hash b ≠ zeroDigest

/-- The strings hashed for two prompts. -/
def hashedFor (hash : List UInt8 → Digest) (s t : String) (p q : List UInt32) :
    Set (List UInt8) :=
  {b | b ∈ seqHashed hash s p ∨ b ∈ seqHashed hash t q}

/-- No digest is shared, and inserting those of `ts` does not change the overlap with `ds`. -/
structure Apart (ds ts : List Digest) : Prop where
  disjoint : ∀ d ∈ ds, d ∉ ts
  overlap : ∀ (ix : PrefixIndex) (inserted now : Nat) (node n : String),
    ((ts.foldl (fun ix d => ix.insert inserted d node) ix).longestPrefixOverlap now ds).lookup n =
      (ix.longestPrefixOverlap now ds).lookup n

/-! ## Overlap -/

theorem lookup_foldl_insert_of_not_mem (ts : List Digest) (ix : PrefixIndex)
    (inserted now : Nat) (node : String) {d : Digest} (hd : d ∉ ts) :
    (ts.foldl (fun ix d => ix.insert inserted d node) ix).lookup now d = ix.lookup now d := by
  induction ts generalizing ix with
  | nil => rfl
  | cons t ts ih =>
    rw [List.mem_cons, not_or] at hd
    rw [List.foldl_cons, ih _ hd.2]
    unfold PrefixIndex.lookup PrefixIndex.insert
    rw [AList.lookup_insert_ne hd.1]

theorem leading_congr {ix ix' : PrefixIndex} {now : Nat} (n : String) {ds : List Digest}
    (h : ∀ d ∈ ds, ix.lookup now d = ix'.lookup now d) :
    ix.leading now n ds = ix'.leading now n ds := by
  induction ds with
  | nil => rfl
  | cons d ds ih =>
    rw [PrefixIndex.leading_cons, PrefixIndex.leading_cons, h d List.mem_cons_self,
      ih fun e he => h e (List.mem_cons_of_mem _ he)]

theorem apart_of_disjoint {ds ts : List Digest} (h : ∀ d ∈ ds, d ∉ ts) : Apart ds ts := by
  refine ⟨h, fun ix inserted now node n => ?_⟩
  rw [PrefixIndex.lookup_longestPrefixOverlap, PrefixIndex.lookup_longestPrefixOverlap,
    leading_congr n fun d hd => lookup_foldl_insert_of_not_mem ts ix inserted now node (h d hd)]

/-! ## Strings of two salts -/

theorem seqChunkBytes_eq (salt : String) (parent : Digest) (tokens : List UInt32) :
    seqChunkBytes salt parent tokens =
      utf8 "cognitora.seq.v1\x00".toList ++
        (utf8 salt.toList ++ 0 :: (parent.toList ++ tokens.flatMap toLeBytes)) := by
  simp [seqChunkBytes]

/-- The longer salt of two equal strings continues the other by whole tokens. -/
theorem continues_of_append {s x : List UInt8} {p q : Digest} {c c' : List UInt32}
    (hle : c.length ≤ tokensPerChunk) (hpos : 0 < c'.length)
    (h : 0 :: (p.toList ++ c.flatMap toLeBytes) = x ++ 0 :: (q.toList ++ c'.flatMap toLeBytes)) :
    Continues s (s ++ x) := by
  cases x with
  | nil => exact Or.inl (List.append_nil s).symm
  | cons z more =>
    rw [List.cons_append, List.cons.injEq] at h
    obtain ⟨rfl, h⟩ := h
    have hlength := congrArg List.length h
    simp only [List.length_append, List.length_cons, Vector.length_toList,
      length_flatMap (f := toLeBytes) (n := 4) fun _ => rfl] at hlength
    unfold tokensPerChunk at hle
    exact Or.inr ⟨more, rfl, by omega, by omega⟩

theorem confusable_of_eq {s t : String} {p q : Digest} {c c' : List UInt32}
    (hc : 0 < c.length ∧ c.length ≤ tokensPerChunk)
    (hc' : 0 < c'.length ∧ c'.length ≤ tokensPerChunk)
    (h : seqChunkBytes s p c = seqChunkBytes t q c') : Confusable s t := by
  rw [seqChunkBytes_eq, seqChunkBytes_eq] at h
  rcases List.append_eq_append_iff.mp (List.append_cancel_left h) with ⟨x, ht, hx⟩ | ⟨x, hs, hx⟩
  · refine Or.inl ?_
    rw [ht]
    exact continues_of_append hc.2 hc'.1 hx
  · refine Or.inr ?_
    rw [hs]
    exact continues_of_append hc'.2 hc.1 hx

/-! ## Salts that can be confused -/

/-- A digest that is neither zero nor the given one. -/
theorem exists_other_digest (d : Digest) : ∃ e : Digest, e ≠ zeroDigest ∧ e ≠ d := by
  by_cases h : d = Vector.replicate 32 1
  · refine ⟨Vector.replicate 32 2, by decide, ?_⟩
    rw [h]
    decide
  · exact ⟨Vector.replicate 32 1, by decide, fun heq => h heq.symm⟩

/-- The strings of a salt that continues another: a chunk under the longer salt and one under
    the shorter are the same bytes. -/
theorem exists_same_bytes {s t : String} {more : List UInt8}
    (ht : utf8 t.toList = utf8 s.toList ++ 0 :: more) (hdvd : 4 ∣ more.length + 1)
    (hle : more.length + 1 ≤ 124) :
    ∃ (parent : Digest) (chunk : List UInt32), 0 < chunk.length ∧
      chunk.length ≤ tokensPerChunk ∧
        seqChunkBytes s parent chunk = seqChunkBytes t zeroDigest [0] := by
  obtain ⟨k, hk⟩ := hdvd
  -- what follows the NUL byte after the shorter salt
  obtain ⟨y, hy⟩ : ∃ y, y = more ++ 0 :: (zeroDigest.toList ++ [0].flatMap toLeBytes) := ⟨_, rfl⟩
  have hlength : y.length = 32 + 4 * (k + 1) := by
    rw [hy]
    simp only [List.length_append, List.length_cons, Vector.length_toList,
      length_flatMap (f := toLeBytes) (n := 4) fun _ => rfl, List.length_nil]
    omega
  obtain ⟨chunk, hchunk, hbytes⟩ := exists_flatMap_eq exists_toLeBytes (k + 1) (y.drop 32)
    (by rw [List.length_drop, hlength]; omega)
  have htake : (y.take 32).toArray.size = 32 := by
    rw [List.size_toArray, List.length_take, hlength]
    omega
  refine ⟨⟨(y.take 32).toArray, htake⟩, chunk, by omega, by unfold tokensPerChunk; omega, ?_⟩
  have hparent : (⟨(y.take 32).toArray, htake⟩ : Digest).toList = y.take 32 := rfl
  rw [seqChunkBytes_eq, seqChunkBytes_eq, hparent, hbytes, List.take_append_drop, ht, hy]
  simp

theorem sound_of_forall_eq {hash : List UInt8 → Digest} {hashed : Set (List UInt8)}
    {b₀ : List UInt8} (h : ∀ b ∈ hashed, b = b₀) (hzero : hash b₀ ≠ zeroDigest) :
    Sound hash hashed := by
  refine ⟨fun b hb c hc _ => (h b hb).trans (h c hc).symm, fun b hb => ?_⟩
  rw [h b hb]
  exact hzero

theorem sound_of_two {hash : List UInt8 → Digest} {hashed : Set (List UInt8)} {b₁ b₂ : List UInt8}
    (h : ∀ b ∈ hashed, b = b₁ ∨ b = b₂) (h₁ : hash b₁ ≠ zeroDigest) (h₂ : hash b₂ ≠ zeroDigest)
    (hne : hash b₁ ≠ hash b₂) : Sound hash hashed := by
  refine ⟨fun b hb c hc heq => ?_, fun b hb => ?_⟩
  · rcases h b hb with rfl | rfl
    · exact ((h c hc).resolve_right fun hc => hne (hc ▸ heq)).symm
    · exact ((h c hc).resolve_left fun hc => hne (hc ▸ heq).symm).symm
  · rcases h b hb with rfl | rfl
    · exact h₁
    · exact h₂

theorem oneToken_length : 0 < [(0 : UInt32)].length ∧ [(0 : UInt32)].length ≤ tokensPerChunk := by
  decide

/-- Confusable salts share a digest under some hash. -/
theorem exists_shared_digest {s t : String} (h : Continues (utf8 s.toList) (utf8 t.toList)) :
    ∃ (hash : List UInt8 → Digest) (p q : List UInt32), Sound hash (hashedFor hash s t p q) ∧
      ∃ d, d ∈ hashSeqChunks hash s p ∧ d ∈ hashSeqChunks hash t q := by
  obtain ⟨parent, chunk, hpos, hle, hsame⟩ : ∃ (parent : Digest) (chunk : List UInt32),
      0 < chunk.length ∧ chunk.length ≤ tokensPerChunk ∧
        seqChunkBytes s parent chunk = seqChunkBytes t zeroDigest [0] := by
    rcases h with h | ⟨more, ht, hdvd, hmore⟩
    · exact ⟨zeroDigest, [0], by decide, by decide, by rw [seqChunkBytes_eq, seqChunkBytes_eq, h]⟩
    · exact exists_same_bytes ht hdvd hmore
  obtain ⟨e, hezero, heparent⟩ := exists_other_digest parent
  by_cases hzero : parent = zeroDigest
  · -- the chunk is the first one of its prompt
    subst hzero
    obtain ⟨hp, hpHashed⟩ := hashed_one (fun _ => e) s hpos hle
    obtain ⟨hq, hqHashed⟩ := hashed_one (fun _ => e) t oneToken_length.1 oneToken_length.2
    have hall : ∀ b ∈ hashedFor (fun _ => e) s t chunk [0], b = seqChunkBytes t zeroDigest [0] := by
      intro b hb
      rw [hashedFor, Set.mem_ofPred_eq, hpHashed, hqHashed, hsame] at hb
      simpa using hb
    exact ⟨fun _ => e, chunk, [0], sound_of_forall_eq hall hezero, e, by rw [hp]; simp,
      by rw [hq]; simp⟩
  · -- the chunk is the second one; the hash of the first is its parent
    obtain ⟨first, hfirst⟩ : ∃ first : List UInt32, first.length = tokensPerChunk :=
      ⟨List.replicate tokensPerChunk 0, by simp⟩
    have hne : seqChunkBytes t zeroDigest [0] ≠ seqChunkBytes s zeroDigest first := by
      intro heq
      rw [← hsame] at heq
      exact hzero (seqChunkBytes_inj s heq).1
    obtain ⟨hash, hhash⟩ : ∃ hash : List UInt8 → Digest,
        hash = fun b => if b = seqChunkBytes s zeroDigest first then parent else e := ⟨_, rfl⟩
    have hparent : hash (seqChunkBytes s zeroDigest first) = parent := by
      rw [hhash]
      exact if_pos rfl
    have hother : hash (seqChunkBytes t zeroDigest [0]) = e := by
      rw [hhash]
      exact if_neg hne
    obtain ⟨hp, hpHashed⟩ := hashed_two hfirst hpos hle hparent
    obtain ⟨hq, hqHashed⟩ := hashed_one hash t oneToken_length.1 oneToken_length.2
    have hcases : ∀ b ∈ hashedFor hash s t (first ++ chunk) [0],
        b = seqChunkBytes s zeroDigest first ∨ b = seqChunkBytes t zeroDigest [0] := by
      intro b hb
      rw [hashedFor, Set.mem_ofPred_eq, hpHashed, hqHashed, hsame] at hb
      simpa [or_assoc] using hb
    have hsound : Sound hash (hashedFor hash s t (first ++ chunk) [0]) :=
      sound_of_two hcases (hparent ▸ hzero) (hother ▸ hezero)
        (by rw [hparent, hother]; exact heparent.symm)
    refine ⟨hash, first ++ chunk, [0], hsound, e, ?_, ?_⟩
    · rw [hp, hsame, hother]
      simp
    · rw [hq, hother]
      simp

/-- Two tenants' digests are apart, for every hash and every two prompts, exactly if their salts
    cannot be confused. -/
theorem tenants_apart_iff (m₁ m₂ a b : String) :
    (∀ (hash : List UInt8 → Digest) (p q : List UInt32),
      Sound hash (hashedFor hash (prefixSalt true m₁ a) (prefixSalt true m₂ b) p q) →
        Apart (hashSeqChunks hash (prefixSalt true m₁ a) p)
          (hashSeqChunks hash (prefixSalt true m₂ b) q)) ↔
      ¬ Confusable (prefixSalt true m₁ a) (prefixSalt true m₂ b) := by
  obtain ⟨s, hs⟩ : ∃ s, s = prefixSalt true m₁ a := ⟨_, rfl⟩
  obtain ⟨t, ht⟩ : ∃ t, t = prefixSalt true m₂ b := ⟨_, rfl⟩
  rw [← hs, ← ht]
  constructor
  · rintro hall (h | h)
    · obtain ⟨hash, p, q, hsound, d, hp, hq⟩ := exists_shared_digest h
      exact (hall hash p q hsound).disjoint d hp hq
    · obtain ⟨hash, q, p, hsound, d, hq, hp⟩ := exists_shared_digest h
      have hswap : hashedFor hash t s q p = hashedFor hash s t p q := by
        ext b
        exact or_comm
      exact (hall hash p q (hswap ▸ hsound)).disjoint d hp hq
  · intro hnot hash p q hsound
    refine apart_of_disjoint fun d hp hq => hnot ?_
    obtain ⟨parent, chunk, hmem, hd, hchunk⟩ := exists_of_mem_hashSeqChunks hp
    obtain ⟨parent', chunk', hmem', hd', hchunk'⟩ := exists_of_mem_hashSeqChunks hq
    exact confusable_of_eq hchunk hchunk'
      (hsound.inj (Or.inl hmem) (Or.inr hmem') (hd.trans hd'.symm))

/-- The same salt for two tenants: a NUL in the model name or in the tenant moves the border
    between them. -/
theorem tenants_share_digest :
    ¬ ∀ (hash : List UInt8 → Digest) (m₁ m₂ a b : String) (p q : List UInt32),
      a ≠ "" → b ≠ "" → a ≠ b →
      Sound hash (hashedFor hash (prefixSalt true m₁ a) (prefixSalt true m₂ b) p q) →
        Apart (hashSeqChunks hash (prefixSalt true m₁ a) p)
          (hashSeqChunks hash (prefixSalt true m₂ b) q) := by
  intro hall
  have hsalt : prefixSalt true "m\x00x" "y" = prefixSalt true "m" "x\x00y" := by decide
  obtain ⟨hash, p, q, hsound, d, hp, hq⟩ :=
    exists_shared_digest (s := prefixSalt true "m\x00x" "y") (t := prefixSalt true "m" "x\x00y")
      (Or.inl (by rw [hsalt]))
  exact (hall hash "m\x00x" "m" "y" "x\x00y" p q (by decide) (by decide) (by decide)
    hsound).disjoint d hp hq

/-! ## Names without NUL -/

/-- Only NUL is encoded with a zero byte. -/
theorem zero_not_mem_utf8EncodeChar {c : Char} (h : c ≠ '\x00') :
    (0 : UInt8) ∉ String.utf8EncodeChar c := by
  have hpos : c.val.toNat ≠ 0 := by
    intro hzero
    exact h (Char.ext (UInt32.toNat_inj.mp hzero))
  have hbyte : ∀ n, n % 256 ≠ 0 → (0 : UInt8) ≠ UInt8.ofNat n := by
    intro n hn heq
    have hnat := congrArg UInt8.toNat heq
    rw [UInt8.toNat_ofNat'] at hnat
    exact hn hnat.symm
  unfold String.utf8EncodeChar
  dsimp only
  have hlt : c.val.toNat < 1114112 := by
    have hvalid := c.valid
    unfold UInt32.isValidChar Nat.isValidChar at hvalid
    omega
  split
  · simp only [List.mem_cons, List.not_mem_nil, or_false]
    exact hbyte _ (by omega)
  · split
    · simp only [List.mem_cons, List.not_mem_nil, or_false, not_or]
      exact ⟨hbyte _ (by omega), hbyte _ (by omega)⟩
    · split
      · simp only [List.mem_cons, List.not_mem_nil, or_false, not_or]
        exact ⟨hbyte _ (by omega), hbyte _ (by omega), hbyte _ (by omega)⟩
      · simp only [List.mem_cons, List.not_mem_nil, or_false, not_or]
        exact ⟨hbyte _ (by omega), hbyte _ (by omega), hbyte _ (by omega), hbyte _ (by omega)⟩

theorem zero_not_mem_utf8 {s : List Char} (h : '\x00' ∉ s) :
    (0 : UInt8) ∉ utf8 s := by
  rw [utf8_eq_flatMap, List.mem_flatMap]
  rintro ⟨c, hc, hzero⟩
  refine zero_not_mem_utf8EncodeChar ?_ hzero
  rintro rfl
  exact h hc

/-- Bytes are split in one way at a zero that neither part has. -/
theorem append_zero_inj {x y x' y' : List UInt8} (hx : (0 : UInt8) ∉ x) (hx' : (0 : UInt8) ∉ x')
    (h : x ++ 0 :: y = x' ++ 0 :: y') : x = x' ∧ y = y' := by
  have hcons : ∀ {u v w z : List UInt8}, (0 : UInt8) ∉ v → 0 :: u = w ++ 0 :: z → v = w →
      v = [] ∧ u = z := by
    rintro u v w z hv heq rfl
    cases v with
    | nil => exact ⟨rfl, (List.cons.inj heq).2⟩
    | cons c v => exact absurd (List.mem_cons.mpr (Or.inl (List.cons.inj heq).1)) hv
  rcases List.append_eq_append_iff.mp h with ⟨w, rfl, hw⟩ | ⟨w, rfl, hw⟩
  · obtain ⟨rfl, rfl⟩ := hcons (fun hmem => hx' (List.mem_append_right _ hmem)) hw rfl
    exact ⟨(List.append_nil x).symm, rfl⟩
  · obtain ⟨rfl, rfl⟩ := hcons (fun hmem => hx (List.mem_append_right _ hmem)) hw rfl
    exact ⟨List.append_nil x', rfl⟩

/-- Distinct tenants without NUL have salts that cannot be confused, for models without NUL. -/
theorem not_confusable_of_no_nul {m₁ m₂ a b : String} (ha : a ≠ "") (hb : b ≠ "") (hab : a ≠ b)
    (hnul : ∀ s ∈ [m₁, m₂, a, b], '\x00' ∉ s.toList) :
    ¬ Confusable (prefixSalt true m₁ a) (prefixSalt true m₂ b) := by
  have hbytes : ∀ m c : String, c ≠ "" →
      utf8 (prefixSalt true m c).toList = utf8 m.toList ++ 0 :: utf8 c.toList := by
    intro m c hc
    have hempty : ¬ (c.isEmpty || !true) = true := by simpa using hc
    rw [prefixSalt, if_neg hempty, String.toList_append, String.toList_append, utf8_append,
      utf8_append, List.append_assoc]
    rfl
  have hzero : ∀ s ∈ [m₁, m₂, a, b], (0 : UInt8) ∉ utf8 s.toList :=
    fun s hs => zero_not_mem_utf8 (hnul s hs)
  have hone : ∀ m c m' c' : String, (0 : UInt8) ∉ utf8 m.toList → (0 : UInt8) ∉ utf8 m'.toList →
      (0 : UInt8) ∉ utf8 c'.toList → c ≠ c' →
      ¬ Continues (utf8 m.toList ++ 0 :: utf8 c.toList)
        (utf8 m'.toList ++ 0 :: utf8 c'.toList) := by
    rintro m c m' c' hm hm' hc' hne (h | ⟨more, h, _⟩)
    · exact hne (utf8_toList_inj (append_zero_inj hm hm' h).2)
    · rw [List.append_assoc, List.cons_append] at h
      have hsplit := (append_zero_inj hm' hm h).2
      rw [hsplit] at hc'
      exact hc' (by simp)
  rintro (h | h)
  · rw [hbytes _ _ ha, hbytes _ _ hb] at h
    exact hone m₁ a m₂ b (hzero _ (by simp)) (hzero _ (by simp)) (hzero _ (by simp)) hab h
  · rw [hbytes _ _ ha, hbytes _ _ hb] at h
    exact hone m₂ b m₁ a (hzero _ (by simp)) (hzero _ (by simp)) (hzero _ (by simp)) hab.symm h

theorem not_confusable_of_two_tenants :
    ¬ Confusable (prefixSalt true "m" "a") (prefixSalt true "m" "b") :=
  not_confusable_of_no_nul (by decide) (by decide) (by decide) (by decide)

end Cognitora.Router

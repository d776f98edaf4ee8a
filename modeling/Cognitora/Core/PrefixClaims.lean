/-
  The prefix index over whole runs (cgn-core `src/prefix.rs`).

  `mem_lookup_iff`: as long as no operation forgets a node, `lookup` names it exactly under
  the digests it inserted less than the TTL ago, whatever other nodes do and however often
  `gc` runs. `longestPrefixOverlap_eq`: for a node whose claims are those of `insert_many`
  calls for the digests of some prompts, all live, the overlap with a request is the longest
  run of leading chunks the request shares with one of the prompts.

  Each operation reads the clock of `World`; time only passes. `insert_many` is its inserts
  one after another, between which time may pass and other tasks may act. `World.log` is a
  history variable: no operation reads it.
-/
import Cognitora.Core.Prefix

namespace Cognitora.Core

namespace PrefixIndex

inductive Op where
  | pass (d : Nat)
  | insert (digest : Digest) (nodeId : String)
  | forgetClaim (digest : Digest) (nodeId : String)
  | forgetNode (nodeId : String)
  | forgetNodeStale (nodeId : String) (olderThan : Nat)
  | gc

/-- The inserts of `insert_many`. -/
def insertMany (digests : List Digest) (nodeId : String) : List Op :=
  digests.map fun d => .insert d nodeId

theorem mem_insertMany {d : Digest} {digests : List Digest} {nodeId : String} :
    Op.insert d nodeId ∈ insertMany digests nodeId ↔ d ∈ digests := by
  simp [insertMany]

/-- The index, the clock its operations read, and the inserts so far with their times. -/
structure World where
  clock : Nat
  index : PrefixIndex
  log : List (Digest × String × Nat)

namespace World

def step (w : World) : Op → World
  | .pass d => { w with clock := w.clock + d }
  | .insert digest nodeId =>
    { w with
      index := w.index.insert w.clock digest nodeId
      log := (digest, nodeId, w.clock) :: w.log }
  | .forgetClaim digest nodeId => { w with index := w.index.forgetClaim digest nodeId }
  | .forgetNode nodeId => { w with index := w.index.forgetNode nodeId }
  | .forgetNodeStale nodeId olderThan =>
    { w with index := w.index.forgetNodeStale w.clock nodeId olderThan }
  | .gc => { w with index := w.index.gc w.clock }

def run (ttl : Nat) (ops : List Op) : World :=
  ops.foldl step { clock := 0, index := PrefixIndex.new ttl, log := [] }

end World

/-- An operation that forgets claims of the node on purpose (`gc` only drops expired ones). -/
def Op.forgets (nodeId : String) : Op → Bool
  | .forgetClaim _ n => n == nodeId
  | .forgetNode n => n == nodeId
  | .forgetNodeStale n _ => n == nodeId
  | _ => false

/-! ## Entries after one operation -/

/-- The entries under a digest. -/
def entries (ix : PrefixIndex) (digest : Digest) : List NodeEntry :=
  (ix.inner.lookup digest).getD []

theorem mem_lookup (ix : PrefixIndex) (now : Nat) (d : Digest) (n : String) :
    n ∈ ix.lookup now d ↔ ∃ e ∈ ix.entries d, e.nodeId = n ∧ now - e.lastSeen < ix.ttl := by
  unfold lookup entries
  cases ix.inner.lookup d with
  | none => simp
  | some v =>
    simp only [List.mem_map, List.mem_filter, decide_eq_true_eq, Option.getD_some]
    constructor
    · rintro ⟨e, ⟨he, hlive⟩, hn⟩
      exact ⟨e, he, hn, hlive⟩
    · rintro ⟨e, he, hn, hlive⟩
      exact ⟨e, ⟨he, hlive⟩, hn⟩

theorem mem_touch {now : Nat} {n : String} {v : List NodeEntry} {e : NodeEntry}
    (h : e ∈ touch now n v) : e ∈ v ∨ e.nodeId = n ∧ e.lastSeen = now := by
  induction v with
  | nil =>
    rw [List.mem_singleton.mp h]
    exact Or.inr ⟨rfl, rfl⟩
  | cons f v ih =>
    unfold touch at h
    split at h
    · next hf =>
      rcases List.mem_cons.mp h with rfl | hv
      · exact Or.inr ⟨hf, rfl⟩
      · exact Or.inl (List.mem_cons_of_mem _ hv)
    · rcases List.mem_cons.mp h with rfl | hv
      · exact Or.inl List.mem_cons_self
      · exact (ih hv).imp (List.mem_cons_of_mem _) id

/-- An entry stays, or it is the node's and gets the new time. -/
theorem touch_keeps {now : Nat} {n : String} {v : List NodeEntry} {e : NodeEntry} (h : e ∈ v) :
    e ∈ touch now n v ∨ { e with lastSeen := now } ∈ touch now n v := by
  induction v with
  | nil => exact absurd h List.not_mem_nil
  | cons f v ih =>
    unfold touch
    split
    · rcases List.mem_cons.mp h with rfl | hv
      · exact Or.inr List.mem_cons_self
      · exact Or.inl (List.mem_cons_of_mem _ hv)
    · rcases List.mem_cons.mp h with rfl | hv
      · exact Or.inl List.mem_cons_self
      · exact (ih hv).imp (List.mem_cons_of_mem _) (List.mem_cons_of_mem _)

theorem touch_self (now : Nat) (n : String) (v : List NodeEntry) :
    ∃ e ∈ touch now n v, e.nodeId = n ∧ e.lastSeen = now := by
  induction v with
  | nil => exact ⟨_, List.mem_cons_self, rfl, rfl⟩
  | cons f v ih =>
    unfold touch
    split
    · next hf => exact ⟨_, List.mem_cons_self, hf, rfl⟩
    · obtain ⟨e, he, heq⟩ := ih
      exact ⟨e, List.mem_cons_of_mem _ he, heq⟩

theorem entries_insert (ix : PrefixIndex) (now : Nat) (d d' : Digest) (n : String) :
    (ix.insert now d n).entries d' =
      if d' = d then touch now n (ix.entries d) else ix.entries d' := by
  unfold entries insert
  dsimp only
  split
  · next h => rw [h, AList.lookup_insert, Option.getD_some]
  · next h => rw [AList.lookup_insert_ne h]

/-- The node has an entry under the digest. -/
def HasClaim (ix : PrefixIndex) (d : Digest) (n : String) : Prop :=
  ∃ e ∈ ix.entries d, e.nodeId = n

theorem hasClaim_insert (ix : PrefixIndex) (now : Nat) (d d' : Digest) (n n' : String) :
    (ix.insert now d n).HasClaim d' n' ↔ ix.HasClaim d' n' ∨ d' = d ∧ n' = n := by
  unfold HasClaim
  rw [entries_insert]
  split
  · next h =>
    subst h
    constructor
    · rintro ⟨e, he, hn⟩
      rcases mem_touch he with hold | ⟨hself, _⟩
      · exact Or.inl ⟨e, hold, hn⟩
      · exact Or.inr ⟨rfl, hn ▸ hself⟩
    · rintro (⟨e, he, hn⟩ | ⟨_, rfl⟩)
      · rcases touch_keeps he with hkept | hnew
        · exact ⟨e, hkept, hn⟩
        · exact ⟨_, hnew, hn⟩
      · obtain ⟨e, he, hn, _⟩ := touch_self now n' (ix.entries d')
        exact ⟨e, he, hn⟩
  · next h => simp [h]

/-- After inserts only, the claims are the old ones and the inserted ones. -/
theorem hasClaim_foldl_insert (ops : List Op) (hops : ∀ op ∈ ops, ∃ d n, op = .insert d n)
    (w : World) (d : Digest) (n : String) :
    (ops.foldl World.step w).index.HasClaim d n ↔
      w.index.HasClaim d n ∨ .insert d n ∈ ops := by
  induction ops generalizing w with
  | nil => simp
  | cons op ops ih =>
    obtain ⟨d', n', rfl⟩ := hops op List.mem_cons_self
    rw [List.foldl_cons, ih (fun op h => hops op (List.mem_cons_of_mem _ h))]
    show (w.index.insert w.clock d' n').HasClaim d n ∨ _ ↔ _
    rw [hasClaim_insert, List.mem_cons, or_assoc, Op.insert.injEq]

theorem getD_retain (keep : NodeEntry → Bool) (o : Option (List NodeEntry)) :
    (o.bind (retain keep)).getD [] = (o.getD []).filter keep := by
  cases o with
  | none => rfl
  | some v =>
    rw [Option.bind_some, Option.getD_some]
    unfold retain
    split
    · next h => rw [List.isEmpty_iff.mp h, Option.getD_none]
    · rw [Option.getD_some]

theorem entries_updateAll (ix : PrefixIndex) (keep : NodeEntry → Bool) (d : Digest) :
    ({ ix with inner := Lib.updateAll (retain keep) ix.inner } : PrefixIndex).entries d =
      (ix.entries d).filter keep := by
  unfold entries
  rw [Lib.lookup_updateAll, getD_retain]

theorem entries_forgetClaim (ix : PrefixIndex) (d d' : Digest) (n : String) :
    (ix.forgetClaim d n).entries d' =
      if d' = d then (ix.entries d).filter fun e => e.nodeId != n else ix.entries d' := by
  have hret := getD_retain (fun e => e.nodeId != n) (ix.inner.lookup d)
  unfold entries forgetClaim
  dsimp only
  cases hl : ix.inner.lookup d with
  | none =>
    dsimp only
    split
    · next h => rw [h, hl]; rfl
    · rfl
  | some v =>
    rw [hl, Option.bind_some] at hret
    dsimp only
    rw [← hret]
    cases retain (fun e => e.nodeId != n) v with
    | none =>
      dsimp only
      split
      · next h => rw [h, AList.lookup_erase]
      · next h => rw [AList.lookup_erase_ne h]
    | some u =>
      dsimp only
      split
      · next h => rw [h, AList.lookup_insert]
      · next h => rw [AList.lookup_insert_ne h]

/-- The entries under a digest that an operation other than an insert keeps. -/
def Op.keeps (w : World) (d : Digest) (e : NodeEntry) : Op → Bool
  | .pass _ => true
  | .insert _ _ => true
  | .forgetClaim digest nodeId => d != digest || e.nodeId != nodeId
  | .forgetNode nodeId => e.nodeId != nodeId
  | .forgetNodeStale nodeId olderThan =>
    e.nodeId != nodeId || decide (w.clock - e.lastSeen < olderThan)
  | .gc => decide (w.clock - e.lastSeen < w.index.ttl)

/-- All operations but `insert` are filters of the entries. -/
theorem entries_step (w : World) {op : Op} (hop : ∀ digest nodeId, op ≠ .insert digest nodeId)
    (d : Digest) :
    (w.step op).index.entries d = (w.index.entries d).filter (op.keeps w d) := by
  cases op with
  | pass _ => exact (List.filter_eq_self.mpr fun _ _ => rfl).symm
  | insert digest nodeId => exact absurd rfl (hop digest nodeId)
  | forgetClaim digest nodeId =>
    rw [World.step, entries_forgetClaim]
    split
    · next hd =>
      subst hd
      exact List.filter_congr fun e _ => by simp [Op.keeps]
    · next hd => exact (List.filter_eq_self.mpr fun e _ => by simp [Op.keeps, hd]).symm
  | forgetNode nodeId => exact entries_updateAll _ _ d
  | forgetNodeStale nodeId olderThan => exact entries_updateAll _ _ d
  | gc => exact entries_updateAll _ _ d

theorem log_step (w : World) {op : Op} (hop : ∀ digest nodeId, op ≠ .insert digest nodeId) :
    (w.step op).log = w.log := by
  cases op with
  | insert digest nodeId => exact absurd rfl (hop digest nodeId)
  | _ => rfl

theorem clock_le_step (w : World) (op : Op) : w.clock ≤ (w.step op).clock := by
  cases op with
  | pass d => exact Nat.le_add_right w.clock d
  | _ => exact Nat.le_refl w.clock

theorem ttl_step (w : World) (op : Op) : (w.step op).index.ttl = w.index.ttl := by
  cases op <;> rfl

/-- Only an insert makes a claim. -/
theorem hasClaim_of_step {w : World} {op : Op} {d : Digest} {n : String}
    (h : (w.step op).index.HasClaim d n) : w.index.HasClaim d n ∨ op = .insert d n := by
  by_cases hop : ∀ digest nodeId, op ≠ .insert digest nodeId
  · obtain ⟨e, he, hn⟩ := h
    rw [entries_step w hop] at he
    exact .inl ⟨e, (List.mem_filter.mp he).1, hn⟩
  · push Not at hop
    obtain ⟨digest, nodeId, rfl⟩ := hop
    rcases (hasClaim_insert w.index w.clock digest d nodeId n).mp h with hold | ⟨rfl, rfl⟩
    · exact .inl hold
    · exact .inr rfl

theorem hasClaim_of_foldl {ops : List Op} {d : Digest} {n : String}
    (hops : ∀ op ∈ ops, op ≠ .insert d n) {w : World}
    (h : (ops.foldl World.step w).index.HasClaim d n) : w.index.HasClaim d n := by
  induction ops generalizing w with
  | nil => exact h
  | cons op ops ih =>
    have hw := ih (fun op hop => hops op (List.mem_cons_of_mem _ hop)) h
    exact (hasClaim_of_step hw).resolve_right (hops op List.mem_cons_self)

theorem not_hasClaim_forgetNode (w : World) (d : Digest) (n : String) :
    ¬ (w.step (.forgetNode n)).index.HasClaim d n := by
  rintro ⟨e, he, hn⟩
  rw [entries_step w (by nofun)] at he
  simpa [Op.keeps, hn] using (List.mem_filter.mp he).2

/-! ## Whole runs -/

/-- What the index holds for a node no operation forgets. -/
structure Tracks (nodeId : String) (w : World) : Prop where
  past : ∀ d n time, (d, n, time) ∈ w.log → time ≤ w.clock
  logged : ∀ d, ∀ e ∈ w.index.entries d, e.nodeId = nodeId → (d, nodeId, e.lastSeen) ∈ w.log
  /-- An insert younger than the TTL has its entry, perhaps with a later time. -/
  held : ∀ d time, (d, nodeId, time) ∈ w.log → w.clock - time < w.index.ttl →
    ∃ e ∈ w.index.entries d, e.nodeId = nodeId ∧ time ≤ e.lastSeen

variable {nodeId : String}

theorem Tracks.insert {w : World} (h : Tracks nodeId w) (d : Digest) (n : String) :
    Tracks nodeId (w.step (.insert d n)) := by
  unfold World.step
  refine ⟨?_, ?_, ?_⟩
  · intro d' n' time hmem
    rcases List.mem_cons.mp hmem with heq | hmem
    · cases heq
      exact Nat.le_refl _
    · exact h.past d' n' time hmem
  · intro d' e he hn
    dsimp only at he
    rw [entries_insert] at he
    split at he
    · next hd =>
      subst hd
      rcases mem_touch he with hold | ⟨hid, htime⟩
      · exact List.mem_cons_of_mem _ (h.logged d' e hold hn)
      · dsimp only
        rw [htime, ← hn, hid]
        exact List.mem_cons_self
    · exact List.mem_cons_of_mem _ (h.logged d' e he hn)
  · intro d' time hmem hlive
    dsimp only
    rw [entries_insert]
    rcases List.mem_cons.mp hmem with heq | hold
    · -- the insert itself
      cases heq
      rw [if_pos rfl]
      obtain ⟨e, he, hid, htime⟩ := touch_self w.clock nodeId (w.index.entries d)
      exact ⟨e, he, hid, htime.ge⟩
    · obtain ⟨e, he, hid, hle⟩ := h.held d' time hold hlive
      split
      · next hd =>
        subst hd
        rcases touch_keeps he with hkeep | hnew
        · exact ⟨e, hkeep, hid, hle⟩
        · exact ⟨_, hnew, hid, h.past d' nodeId time hold⟩
      · exact ⟨e, he, hid, hle⟩

/-- Live entries of the node are kept. -/
theorem keeps_of_not_forgets {w : World} {op : Op} (hop : op.forgets nodeId = false) (d : Digest)
    {e : NodeEntry} (hid : e.nodeId = nodeId) (hlive : w.clock - e.lastSeen < w.index.ttl) :
    op.keeps w d e = true := by
  cases op with
  | pass _ => rfl
  | insert _ _ => rfl
  | forgetClaim _ n =>
    have hne : n ≠ nodeId := by simpa [Op.forgets] using hop
    simp [Op.keeps, hid, hne.symm]
  | forgetNode n =>
    have hne : n ≠ nodeId := by simpa [Op.forgets] using hop
    simp [Op.keeps, hid, hne.symm]
  | forgetNodeStale n _ =>
    have hne : n ≠ nodeId := by simpa [Op.forgets] using hop
    simp [Op.keeps, hid, hne.symm]
  | gc => simpa [Op.keeps] using hlive

/-- An operation that keeps the node's live entries. -/
theorem Tracks.keep {w : World} (h : Tracks nodeId w) {op : Op}
    (hinsert : ∀ digest n, op ≠ .insert digest n) (hop : op.forgets nodeId = false) :
    Tracks nodeId (w.step op) := by
  have hclock := clock_le_step w op
  refine ⟨fun d n time hmem => ?_, fun d e he hn => ?_, fun d time hmem hlive => ?_⟩
  · rw [log_step w hinsert] at hmem
    exact (h.past d n time hmem).trans hclock
  · rw [entries_step w hinsert] at he
    rw [log_step w hinsert]
    exact h.logged d e (List.mem_filter.mp he).1 hn
  · rw [log_step w hinsert] at hmem
    rw [ttl_step] at hlive
    obtain ⟨e, he, hid, hle⟩ := h.held d time hmem (by omega)
    rw [entries_step w hinsert]
    exact ⟨e, List.mem_filter.mpr ⟨he, keeps_of_not_forgets hop d hid (by omega)⟩, hid, hle⟩

theorem Tracks.step {w : World} (h : Tracks nodeId w) (op : Op) (hop : op.forgets nodeId = false) :
    Tracks nodeId (w.step op) := by
  by_cases hinsert : ∀ digest n, op ≠ .insert digest n
  · exact h.keep hinsert hop
  · push Not at hinsert
    obtain ⟨digest, n, rfl⟩ := hinsert
    exact h.insert digest n

theorem run_tracks (ttl : Nat) (ops : List Op) (hops : ∀ op ∈ ops, op.forgets nodeId = false) :
    Tracks nodeId (World.run ttl ops) := by
  refine List.foldlRecOn ops World.step ?_ fun w h op hop => h.step op (hops op hop)
  exact ⟨fun _ _ _ h => absurd h List.not_mem_nil, fun _ _ h => absurd h List.not_mem_nil,
    fun _ _ h => absurd h List.not_mem_nil⟩

theorem ttl_run (ttl : Nat) (ops : List Op) : (World.run ttl ops).index.ttl = ttl := by
  refine List.foldlRecOn (motive := fun w : World => w.index.ttl = ttl) ops World.step rfl ?_
  exact fun w h op _ => (ttl_step w op).trans h

theorem insert_mem_of_log (ttl : Nat) (ops : List Op) :
    ∀ d n time, (d, n, time) ∈ (World.run ttl ops).log → Op.insert d n ∈ ops := by
  refine List.foldlRecOn
    (motive := fun w : World => ∀ d n time, (d, n, time) ∈ w.log → Op.insert d n ∈ ops)
    ops World.step (fun _ _ _ h => absurd h List.not_mem_nil) ?_
  intro w h op hop d n time hmem
  cases op with
  | insert d' n' =>
    rcases List.mem_cons.mp hmem with heq | hold
    · cases heq
      exact hop
    · exact h d n time hold
  | _ => exact h d n time hmem

/-- A node no operation forgets is found exactly under what it inserted less than the TTL ago. -/
theorem mem_lookup_iff (ttl : Nat) (ops : List Op) (hops : ∀ op ∈ ops, op.forgets nodeId = false)
    (d : Digest) :
    nodeId ∈ (World.run ttl ops).index.lookup (World.run ttl ops).clock d ↔
      ∃ time, (d, nodeId, time) ∈ (World.run ttl ops).log ∧
        (World.run ttl ops).clock - time < ttl := by
  have h := run_tracks ttl ops hops
  have httl := ttl_run ttl ops
  rw [mem_lookup, httl]
  constructor
  · rintro ⟨e, he, hid, hlive⟩
    exact ⟨e.lastSeen, h.logged d e he hid, hlive⟩
  · rintro ⟨time, hmem, hlive⟩
    obtain ⟨e, he, hid, hle⟩ := h.held d time hmem (by rwa [httl])
    exact ⟨e, he, hid, by omega⟩

/-! ## Overlap of a request with what a node was sent -/

section

variable (hash : List UInt8 → Digest) (model : String)

/-- At the end of the run the node's claims are those of `insert_many` calls for the digests of
    the prompts, and all of them are live. The inserts of the calls may come in any order and
    interleaved with other operations, and a claim may have been inserted more than once. -/
structure ClaimsFrom (nodeId : String) (prompts : List (List UInt32)) (ttl : Nat)
    (ops : List Op) : Prop where
  kept : ∀ op ∈ ops, op.forgets nodeId = false
  only : ∀ d, Op.insert d nodeId ∈ ops →
    ∃ p ∈ prompts, Op.insert d nodeId ∈ insertMany (hashSeqChunks hash model p) nodeId
  live : ∀ p ∈ prompts, ∀ d, Op.insert d nodeId ∈ insertMany (hashSeqChunks hash model p) nodeId →
    ∃ time, (d, nodeId, time) ∈ (World.run ttl ops).log ∧ (World.run ttl ops).clock - time < ttl

end

variable {hash : List UInt8 → Digest} {model : String} {prompts : List (List UInt32)} {ttl : Nat}
  {ops : List Op}

theorem ClaimsFrom.mem_lookup (h : ClaimsFrom hash model nodeId prompts ttl ops) (d : Digest) :
    nodeId ∈ (World.run ttl ops).index.lookup (World.run ttl ops).clock d ↔
      ∃ p ∈ prompts, d ∈ hashSeqChunks hash model p := by
  rw [mem_lookup_iff ttl ops h.kept]
  constructor
  · rintro ⟨time, hmem, _⟩
    obtain ⟨p, hp, hd⟩ := h.only d (insert_mem_of_log ttl ops d nodeId time hmem)
    exact ⟨p, hp, mem_insertMany.mp hd⟩
  · rintro ⟨p, hp, hd⟩
    exact h.live p hp d (mem_insertMany.mpr hd)

/-- The overlap of a request with a node is the longest run of leading chunks that the request
    shares with one of the prompts the node was sent; a node without a shared chunk is absent.
    `hash` is injective on the strings hashed and maps none of them to the zero digest. -/
theorem longestPrefixOverlap_eq (hclaims : ClaimsFrom hash model nodeId prompts ttl ops)
    (t : List UInt32)
    (hinj : Set.InjOn hash {b | ∃ q ∈ t :: prompts, b ∈ seqHashed hash model q})
    (hzero : ∀ q ∈ t :: prompts, ∀ b ∈ seqHashed hash model q, hash b ≠ zeroDigest) :
    ((World.run ttl ops).index.longestPrefixOverlap (World.run ttl ops).clock
        (hashSeqChunks hash model t)).lookup nodeId =
      (let shared := Lib.maxOver
        (fun p => Lib.commonLen (chunks tokensPerChunk t) (chunks tokensPerChunk p)) prompts
      if shared = 0 then none else some shared) := by
  have hlen := length_takeWhile_hashSeqChunks hinj hzero
    (fun d => ((World.run ttl ops).index.lookup (World.run ttl ops).clock d).contains nodeId)
    (fun d => List.contains_iff_mem.trans (hclaims.mem_lookup d))
  rw [lookup_longestPrefixOverlap]
  unfold leading
  rw [hlen]

/-- A node that was sent `0..33`, asked for `0..32` followed by 99: one chunk. -/
theorem longestPrefixOverlap_one_chunk :
    ((World.run 60
          (insertMany (hashSeqChunks blake3Sample "m" (forked 32)) "n")).index.longestPrefixOverlap
        (World.run 60 (insertMany (hashSeqChunks blake3Sample "m" (forked 32)) "n")).clock
        (hashSeqChunks blake3Sample "m" (forked 99))).lookup "n" = some 1 := by
  have hlive : ∀ d ∈ hashSeqChunks blake3Sample "m" (forked 32), (d, "n", 0) ∈
      (World.run 60 (insertMany (hashSeqChunks blake3Sample "m" (forked 32)) "n")).log := by
    decide +kernel
  have hclock :
      (World.run 60 (insertMany (hashSeqChunks blake3Sample "m" (forked 32)) "n")).clock = 0 := by
    decide +kernel
  have hclaims : ClaimsFrom blake3Sample "m" "n" [forked 32] 60
      (insertMany (hashSeqChunks blake3Sample "m" (forked 32)) "n") := by
    refine ⟨?_, fun d hd => ⟨forked 32, List.mem_singleton_self _, hd⟩, ?_⟩
    · intro op hop
      obtain ⟨d, _, rfl⟩ := List.mem_map.mp hop
      rfl
    · intro p hp d hd
      rw [List.mem_singleton.mp hp] at hd
      exact ⟨0, hlive d (mem_insertMany.mp hd), by rw [hclock]; decide⟩
  have hinj : ∀ b ∈ [forked 99, forked 32].flatMap (seqHashed blake3Sample "m"),
      ∀ c ∈ [forked 99, forked 32].flatMap (seqHashed blake3Sample "m"),
      blake3Sample b = blake3Sample c → b = c := by
    decide +kernel
  have hshared : Lib.maxOver (fun p => Lib.commonLen (chunks tokensPerChunk (forked 99))
      (chunks tokensPerChunk p)) [forked 32] = 1 := by
    decide +kernel
  rw [longestPrefixOverlap_eq hclaims (forked 99)
    (fun b hb c hc => hinj b (List.mem_flatMap.mpr hb) c (List.mem_flatMap.mpr hc))
    (by decide +kernel), hshared]
  rfl

end PrefixIndex

end Cognitora.Core

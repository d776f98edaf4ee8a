/-
  The prefix index is a map from claims to times (cgn-core `src/prefix.rs`).

  Abstractly the index is `Claims`: for a digest and a node, the time the node last claimed the
  digest. `Claims.apply` says what each operation does to that map; forgetting and `gc` remove
  the claims a rule names. `Claims.Allows` says which answers a query may give. The index
  simulates the map over every sequence of calls (`index_refines_claims`): it stores each claim
  once and no other, expired ones included, and its answers are those of the live ones.

  The calls are completed one after another. Each carries the clock readings it makes, one per
  insert for `insert_many`. The readings may be any numbers: `duration_since` truncates at zero,
  and nothing here needs them in order.
-/
import Cognitora.Core.PrefixSpec
import Mathlib.Data.Set.Card

namespace Cognitora.Core

namespace PrefixIndex

inductive Call where
  | insert (now : Nat) (digest : Digest) (nodeId : String)
  | insertMany (digests : List (Nat × Digest)) (nodeId : String)
  | forgetClaim (digest : Digest) (nodeId : String)
  | forgetNode (nodeId : String)
  | forgetNodeStale (now : Nat) (nodeId : String) (olderThan : Nat)
  | gc (now : Nat)
  | lookup (now : Nat) (digest : Digest)
  | overlap (now : Nat) (digests : List Digest)
  | longestPrefixOverlap (now : Nat) (digests : List Digest)

inductive Answer where
  | done
  | nodes (ids : List String)
  | counts (byNode : AList fun _ : String => Nat)

/-- What a call leaves. -/
def call (ix : PrefixIndex) : Call → PrefixIndex
  | .insert now digest nodeId => ix.insert now digest nodeId
  | .insertMany digests nodeId => digests.foldl (fun ix d => ix.insert d.1 d.2 nodeId) ix
  | .forgetClaim digest nodeId => ix.forgetClaim digest nodeId
  | .forgetNode nodeId => ix.forgetNode nodeId
  | .forgetNodeStale now nodeId olderThan => ix.forgetNodeStale now nodeId olderThan
  | .gc now => ix.gc now
  | .lookup _ _ => ix
  | .overlap _ _ => ix
  | .longestPrefixOverlap _ _ => ix

/-- What a call returns. -/
def answer (ix : PrefixIndex) : Call → Answer
  | .lookup now digest => .nodes (ix.lookup now digest)
  | .overlap now digests => .counts (ix.overlap now digests)
  | .longestPrefixOverlap now digests => .counts (ix.longestPrefixOverlap now digests)
  | _ => .done

def calls (ttl : Nat) (cs : List Call) : PrefixIndex :=
  cs.foldl call (PrefixIndex.new ttl)

/-! ## The abstract map -/

namespace Claims

def put (c : Claims) (digest : Digest) (nodeId : String) (time : Nat) : Claims :=
  fun d n => if d = digest ∧ n = nodeId then some time else c d n

/-- Remove the claims the rule names, and no others. -/
def remove (c : Claims) (rule : Digest → String → Nat → Bool) : Claims :=
  fun d n => (c d n).filter fun time => !rule d n time

def apply (ttl : Nat) (c : Claims) : Call → Claims
  | .insert now digest nodeId => c.put digest nodeId now
  | .insertMany digests nodeId => digests.foldl (fun c d => c.put d.2 nodeId d.1) c
  | .forgetClaim digest nodeId => c.remove fun d n _ => d == digest && n == nodeId
  | .forgetNode nodeId => c.remove fun _ n _ => n == nodeId
  | .forgetNodeStale now nodeId olderThan =>
    c.remove fun _ n time => n == nodeId && decide (olderThan ≤ now - time)
  | .gc now => c.remove fun _ _ time => decide (ttl ≤ now - time)
  | .lookup _ _ => c
  | .overlap _ _ => c
  | .longestPrefixOverlap _ _ => c

def after (ttl : Nat) (cs : List Call) : Claims :=
  cs.foldl (apply ttl) Claims.none

/-- The node has a claim on the digest that is younger than the TTL. -/
def Live (ttl now : Nat) (c : Claims) (n : String) (d : Digest) : Prop :=
  ∃ time, c d n = some time ∧ now - time < ttl

instance (ttl now : Nat) (c : Claims) (n : String) (d : Digest) :
    Decidable (Live ttl now c n d) :=
  decidable_of_iff ((c d n).any fun time => decide (now - time < ttl)) (by
    simp [Live, Option.any_eq_true])

/-- The node has a live claim on each of the first `k` digests. -/
def LivePrefix (ttl now : Nat) (c : Claims) (n : String) (ds : List Digest) (k : Nat) : Prop :=
  k ≤ ds.length ∧ ∀ d ∈ ds.take k, Live ttl now c n d

/-- The answers a query may give. `lookup` names each live claim's node once; `overlap` counts
    the digests a node is live on, with their repetitions; `longest_prefix_overlap` gives the
    length of its longest live prefix. A node with count 0 is absent. -/
def Allows (ttl : Nat) (c : Claims) : Call → Answer → Prop
  | .lookup now d, .nodes ids => ids.Nodup ∧ ∀ n, n ∈ ids ↔ Live ttl now c n d
  | .overlap now ds, .counts m => ∀ n k, m.lookup n = some k ↔
      1 ≤ k ∧ k = ds.countP fun d => decide (Live ttl now c n d)
  | .longestPrefixOverlap now ds, .counts m => ∀ n k, m.lookup n = some k ↔
      1 ≤ k ∧ LivePrefix ttl now c n ds k ∧ ∀ j, LivePrefix ttl now c n ds j → j ≤ k
  | .lookup _ _, _ => False
  | .overlap _ _, _ => False
  | .longestPrefixOverlap _ _, _ => False
  | _, a => a = .done

end Claims

/-! ## Simulation -/

/-- The index stores exactly the claims, a node once under a digest, and no empty list. -/
structure Simulates (ix : PrefixIndex) (c : Claims) : Prop where
  nodup : ∀ d, ((ix.entries d).map NodeEntry.nodeId).Nodup
  holds : ∀ d n time, ⟨n, time⟩ ∈ ix.entries d ↔ c d n = some time
  nonempty : ∀ d v, ix.inner.lookup d = some v → v ≠ []

variable {ix ix' : PrefixIndex} {c : Claims}

theorem simulates_new (ttl : Nat) : Simulates (PrefixIndex.new ttl) Claims.none where
  nodup _ := List.nodup_nil
  holds _ _ _ := by simp [entries, PrefixIndex.new, Claims.none]
  nonempty _ _ h := by simp [PrefixIndex.new] at h

theorem touch_ne_nil (now : Nat) (n : String) (v : List NodeEntry) : touch now n v ≠ [] := by
  obtain ⟨e, he, _⟩ := touch_self now n v
  exact List.ne_nil_of_mem he

theorem Simulates.insert (h : Simulates ix c) (now : Nat) (digest : Digest) (nodeId : String) :
    Simulates (ix.insert now digest nodeId) (c.put digest nodeId now) where
  nodup d := by
    rw [entries_insert]
    split
    · exact nodup_touch (h.nodup digest)
    · exact h.nodup d
  holds d n time := by
    rw [entries_insert, Claims.put]
    split
    · next hd =>
      subst hd
      rw [mem_touch_iff (h.nodup d), h.holds, NodeEntry.mk.injEq]
      by_cases hn : n = nodeId
      · subst hn
        simp [eq_comm]
      · simp [hn]
    · next hd => rw [h.holds, if_neg fun hboth => hd hboth.1]
  nonempty d v hv := by
    unfold PrefixIndex.insert at hv
    dsimp only at hv
    by_cases hd : d = digest
    · subst hd
      rw [AList.lookup_insert, Option.some.injEq] at hv
      exact hv ▸ touch_ne_nil _ _ _
    · rw [AList.lookup_insert_ne hd] at hv
      exact h.nonempty d v hv

theorem Simulates.insertMany (h : Simulates ix c) (digests : List (Nat × Digest))
    (nodeId : String) :
    Simulates (digests.foldl (fun ix d => ix.insert d.1 d.2 nodeId) ix)
      (digests.foldl (fun c d => c.put d.2 nodeId d.1) c) := by
  induction digests generalizing ix c with
  | nil => exact h
  | cons d ds ih => exact ih (h.insert d.1 d.2 nodeId)

/-- An operation that filters the entries removes the claims whose entries it drops. -/
theorem Simulates.remove (h : Simulates ix c) {rule : Digest → String → Nat → Bool}
    (hentries : ∀ d, ix'.entries d =
      (ix.entries d).filter fun e => !rule d e.nodeId e.lastSeen)
    (hnonempty : ∀ d v, ix'.inner.lookup d = some v → v ≠ []) :
    Simulates ix' (c.remove rule) where
  nodup d := by
    rw [hentries]
    exact (h.nodup d).sublist (List.filter_sublist.map _)
  holds d n time := by
    rw [hentries, List.mem_filter, h.holds, Claims.remove, Option.filter_eq_some_iff]
  nonempty := hnonempty

theorem retain_ne_nil {keep : NodeEntry → Bool} {v u : List NodeEntry}
    (h : retain keep v = some u) : u ≠ [] := by
  unfold retain at h
  split at h
  · cases h
  · next hne =>
    cases h
    exact fun hnil => hne (List.isEmpty_iff.mpr hnil)

theorem nonempty_updateAll (keep : NodeEntry → Bool) (d : Digest) (v : List NodeEntry)
    (hv : (Lib.updateAll (retain keep) ix.inner).lookup d = some v) : v ≠ [] := by
  rw [Lib.lookup_updateAll] at hv
  obtain ⟨u, _, hu⟩ := Option.bind_eq_some_iff.mp hv
  exact retain_ne_nil hu

theorem Simulates.nonempty_forgetClaim (h : Simulates ix c) (digest : Digest) (nodeId : String)
    (d : Digest) (v : List NodeEntry)
    (hv : (ix.forgetClaim digest nodeId).inner.lookup d = some v) : v ≠ [] := by
  unfold forgetClaim at hv
  dsimp only at hv
  split at hv
  · exact h.nonempty d v hv
  · split at hv
    · by_cases hd : d = digest
      · subst hd
        rw [AList.lookup_erase] at hv
        cases hv
      · rw [AList.lookup_erase_ne hd] at hv
        exact h.nonempty d v hv
    · next u hu =>
      by_cases hd : d = digest
      · subst hd
        rw [AList.lookup_insert, Option.some.injEq] at hv
        exact hv ▸ retain_ne_nil hu
      · rw [AList.lookup_insert_ne hd] at hv
        exact h.nonempty d v hv

theorem decide_lt_eq (a b : Nat) : decide (a < b) = !decide (b ≤ a) := by
  rw [Bool.eq_iff_iff]
  simp

theorem Simulates.call (h : Simulates ix c) (a : Call) :
    Simulates (ix.call a) (c.apply ix.ttl a) := by
  cases a with
  | insert now digest nodeId => exact h.insert now digest nodeId
  | insertMany digests nodeId => exact h.insertMany digests nodeId
  | forgetClaim digest nodeId =>
    refine h.remove (fun d => ?_) (h.nonempty_forgetClaim digest nodeId)
    rw [PrefixIndex.call, entries_forgetClaim]
    split
    · next hd =>
      subst hd
      exact List.filter_congr fun e _ => by rw [beq_self_eq_true, Bool.true_and, bne]
    · next hd =>
      refine (List.filter_eq_self.mpr fun e _ => ?_).symm
      rw [beq_false_of_ne hd, Bool.false_and, Bool.not_false]
  | forgetNode nodeId =>
    exact h.remove (fun d => (entries_updateAll ix _ d).trans rfl) (nonempty_updateAll _)
  | forgetNodeStale now nodeId olderThan =>
    refine h.remove (fun d => (entries_updateAll ix _ d).trans ?_) (nonempty_updateAll _)
    exact List.filter_congr fun e _ => by rw [Bool.not_and, decide_lt_eq, bne]
  | gc now =>
    refine h.remove (fun d => (entries_updateAll ix _ d).trans ?_) (nonempty_updateAll _)
    exact List.filter_congr fun e _ => decide_lt_eq _ _
  | lookup now digest => exact h
  | overlap now digests => exact h
  | longestPrefixOverlap now digests => exact h

theorem ttl_foldl_insert (digests : List (Nat × Digest)) (nodeId : String) :
    (digests.foldl (fun ix d => ix.insert d.1 d.2 nodeId) ix).ttl = ix.ttl := by
  induction digests generalizing ix with
  | nil => rfl
  | cons d ds ih => exact ih

theorem ttl_call (ix : PrefixIndex) (a : Call) : (ix.call a).ttl = ix.ttl := by
  cases a with
  | insertMany digests nodeId => exact ttl_foldl_insert digests nodeId
  | _ => rfl

theorem simulates_calls (ttl : Nat) (cs : List Call) :
    Simulates (calls ttl cs) (Claims.after ttl cs) ∧ (calls ttl cs).ttl = ttl := by
  induction cs using List.reverseRecOn with
  | nil => exact ⟨simulates_new ttl, rfl⟩
  | append_singleton cs a ih =>
    obtain ⟨hsim, httl⟩ := ih
    rw [calls, Claims.after, List.foldl_concat, List.foldl_concat, ← calls, ← Claims.after]
    refine ⟨?_, (ttl_call _ a).trans httl⟩
    have hstep := hsim.call a
    rw [httl] at hstep
    exact hstep

/-! ## Answers -/

/-- The digests with a claim are the keys of the index. -/
theorem Simulates.len_eq (h : Simulates ix c) :
    (ix.len : ℕ∞) = {d | ∃ n time, c d n = some time}.encard := by
  have hkeys : {d | ∃ n time, c d n = some time} = (ix.inner.keys.toFinset : Set Digest) := by
    ext d
    simp only [Set.mem_ofPred_eq, ← h.holds, List.coe_toFinset]
    rw [← AList.mem_keys, ← AList.lookup_isSome]
    unfold entries
    cases hd : ix.inner.lookup d with
    | none => simp
    | some v =>
      obtain ⟨e, he⟩ := List.exists_mem_of_ne_nil v (h.nonempty d v hd)
      simp only [Option.getD_some, Option.isSome_some, iff_true]
      exact ⟨e.nodeId, e.lastSeen, he⟩
  rw [hkeys, Set.encard_coe_eq_coe_finsetCard, List.toFinset_card_of_nodup ix.inner.keys_nodup,
    AList.keys, List.keys, List.length_map]
  rfl

theorem Simulates.mem_lookup (h : Simulates ix c) (now : Nat) (d : Digest) (n : String) :
    n ∈ ix.lookup now d ↔ Claims.Live ix.ttl now c n d := by
  rw [PrefixIndex.mem_lookup, Claims.Live]
  constructor
  · rintro ⟨e, he, rfl, hlive⟩
    exact ⟨e.lastSeen, (h.holds d e.nodeId e.lastSeen).mp he, hlive⟩
  · rintro ⟨time, hc, hlive⟩
    exact ⟨⟨n, time⟩, (h.holds d n time).mpr hc, rfl, hlive⟩

theorem lookup_eq_entries (ix : PrefixIndex) (now : Nat) (d : Digest) :
    ix.lookup now d =
      ((ix.entries d).filter fun e => decide (now - e.lastSeen < ix.ttl)).map NodeEntry.nodeId := by
  unfold lookup entries
  cases ix.inner.lookup d with
  | none => rfl
  | some v => rfl

theorem Simulates.nodup_lookup (h : Simulates ix c) (now : Nat) (d : Digest) :
    (ix.lookup now d).Nodup := by
  rw [lookup_eq_entries]
  exact (h.nodup d).sublist (List.filter_sublist.map _)

/-- `overlap` counts in all lists of holders at once. -/
theorem overlap_eq (ix : PrefixIndex) (now : Nat) (ds : List Digest) :
    ix.overlap now ds = (ds.flatMap (ix.lookup now)).foldl Lib.bump ∅ := by
  rw [overlap, List.foldl_flatMap]

theorem count_flatMap_eq_countP {ι α : Type} [DecidableEq α] (f : ι → List α)
    (hf : ∀ i, (f i).Nodup) (l : List ι) (a : α) :
    (l.flatMap f).count a = l.countP fun i => decide (a ∈ f i) := by
  induction l with
  | nil => rfl
  | cons i l ih =>
    rw [List.flatMap_cons, List.count_append, ih, List.countP_cons, Nat.add_comm]
    by_cases hi : a ∈ f i
    · rw [List.count_eq_one_of_mem (hf i) hi]
      simp [hi]
    · rw [List.count_eq_zero_of_not_mem hi]
      simp [hi]

theorem Simulates.lookup_overlap (h : Simulates ix c) (now : Nat) (ds : List Digest) (n : String)
    (k : Nat) :
    (ix.overlap now ds).lookup n = some k ↔
      1 ≤ k ∧ k = ds.countP fun d => decide (n ∈ ix.lookup now d) := by
  rw [overlap_eq, Lib.lookup_foldl_bump, ← count_flatMap_eq_countP _ (h.nodup_lookup now)]
  have hcount := List.count_pos_iff (a := n) (l := ds.flatMap (ix.lookup now))
  split
  · next hn =>
    rw [← hcount] at hn
    simp only [AList.lookup_empty, Option.getD_none, Nat.zero_add, Option.some.injEq]
    omega
  · next hn =>
    rw [← hcount] at hn
    simp only [AList.lookup_empty, reduceCtorEq, false_iff, not_and]
    omega

/-- The longest run of leading digests a node is found under. -/
theorem Simulates.livePrefix_iff (h : Simulates ix c) (now : Nat) (ds : List Digest) (n : String)
    (k : Nat) : Claims.LivePrefix ix.ttl now c n ds k ↔ k ≤ ix.leading now n ds := by
  rw [leading, Lib.le_length_takeWhile_iff, Claims.LivePrefix]
  simp only [List.contains_iff_mem, h.mem_lookup]

theorem Simulates.lookup_longestPrefixOverlap (h : Simulates ix c) (now : Nat)
    (ds : List Digest) (n : String) (k : Nat) :
    (ix.longestPrefixOverlap now ds).lookup n = some k ↔
      1 ≤ k ∧ Claims.LivePrefix ix.ttl now c n ds k ∧
        ∀ j, Claims.LivePrefix ix.ttl now c n ds j → j ≤ k := by
  rw [PrefixIndex.lookup_longestPrefixOverlap]
  simp only [h.livePrefix_iff]
  constructor
  · intro hk
    split at hk
    · cases hk
    · cases hk
      exact ⟨by omega, Nat.le_refl _, fun j hj => hj⟩
  · rintro ⟨hk, hle, hmax⟩
    have hleading := hmax _ (Nat.le_refl _)
    rw [if_neg (by omega)]
    congr 1
    omega

theorem Simulates.allows (h : Simulates ix c) (a : Call) :
    Claims.Allows ix.ttl c a (ix.answer a) := by
  cases a with
  | lookup now d => exact ⟨h.nodup_lookup now d, h.mem_lookup now d⟩
  | overlap now ds =>
    intro n k
    have hcount : (ds.countP fun d => decide (n ∈ ix.lookup now d)) =
        ds.countP fun d => decide (Claims.Live ix.ttl now c n d) :=
      List.countP_congr fun d _ => by simpa only [decide_eq_true_iff] using h.mem_lookup now d n
    rw [h.lookup_overlap, hcount]
  | longestPrefixOverlap now ds => exact h.lookup_longestPrefixOverlap now ds
  | _ => rfl

/-- A run of leading digests is among all digests. -/
theorem leading_le_countP (ix : PrefixIndex) (now : Nat) (n : String) (ds : List Digest) :
    ix.leading now n ds ≤ ds.countP fun d => decide (n ∈ ix.lookup now d) := by
  induction ds with
  | nil => exact Nat.le_refl 0
  | cons d ds ih =>
    rw [leading_cons, List.countP_cons]
    split
    · next hd => simpa [hd] using ih
    · exact Nat.zero_le _

/-- After every sequence of calls the index holds the claims of the abstract map, counts the
    digests that have one, gives the answers the map allows, and never reports a longer prefix
    than it counts digests. -/
theorem index_refines_claims (ttl : Nat) (cs : List Call) :
    Simulates (calls ttl cs) (Claims.after ttl cs) ∧
      ((calls ttl cs).len : ℕ∞) = {d | ∃ n time, Claims.after ttl cs d n = some time}.encard ∧
      (∀ a, Claims.Allows ttl (Claims.after ttl cs) a ((calls ttl cs).answer a)) ∧
      ∀ now ds n k, ((calls ttl cs).longestPrefixOverlap now ds).lookup n = some k →
        ∃ m, ((calls ttl cs).overlap now ds).lookup n = some m ∧ k ≤ m := by
  obtain ⟨hsim, httl⟩ := simulates_calls ttl cs
  have hallows := hsim.allows
  rw [httl] at hallows
  refine ⟨hsim, hsim.len_eq, hallows, fun now ds n k hk => ?_⟩
  obtain ⟨hpos, hlive, _⟩ := (hsim.lookup_longestPrefixOverlap now ds n k).mp hk
  have hle := Nat.le_trans ((hsim.livePrefix_iff now ds n k).mp hlive)
    (leading_le_countP _ now n ds)
  exact ⟨_, (hsim.lookup_overlap now ds n _).mpr ⟨Nat.le_trans hpos hle, rfl⟩, hle⟩

end PrefixIndex

end Cognitora.Core

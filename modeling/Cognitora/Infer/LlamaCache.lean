/-
  The cached forward pass against a pass without caches.

  `states l ts` are the hidden states before layer `l` when the tokens `ts` go through the
  model in one piece, each token attending to itself and those before it. They do not depend
  on later tokens (`states_take`), so the keys and values computed from them for some tokens
  stay those of any continuation. A cache is `Clean` for `ts` if every layer has exactly these.

  A pass works on `Lane`s: the tokens a cache has, and those that are added now. `At lanes i j`
  is what holds in layer `i` once the first `j` lanes have attended there: their entry of this
  layer covers the new tokens, the later layers do not yet, and all that was read so far is
  `Exact`. The last part holds wherever the pass fails.
-/
import Cognitora.Infer.Llama
import Mathlib.Data.List.Forall2

namespace Cognitora.Infer.Llama

open Cognitora.Lib Cognitora.Lib.Faulty

/-! ## Lists by index -/

theorem take_mapIdx {α β : Type} (f : Nat → α → β) (xs : List α) (n : Nat) :
    (xs.mapIdx f).take n = (xs.take n).mapIdx f := by
  refine List.ext_getElem? fun i => ?_
  rw [List.getElem?_take, List.getElem?_mapIdx, List.getElem?_mapIdx, List.getElem?_take]
  split <;> rfl

theorem drop_mapIdx {α β : Type} (f : Nat → α → β) (xs : List α) (n : Nat) :
    (xs.mapIdx f).drop n = (xs.drop n).mapIdx fun i => f (n + i) := by
  refine List.ext_getElem? fun i => ?_
  rw [List.getElem?_drop, List.getElem?_mapIdx, List.getElem?_mapIdx, List.getElem?_drop]

theorem mapIdx_map {α β γ : Type} (f : Nat → β → γ) (g : α → β) (xs : List α) :
    (xs.map g).mapIdx f = xs.mapIdx fun i x => f i (g x) := by
  refine List.ext_getElem? fun i => ?_
  rw [List.getElem?_mapIdx, List.getElem?_mapIdx, List.getElem?_map, Option.map_map]
  rfl

theorem mapIdx_congr {α β : Type} {f g : Nat → α → β} {xs : List α}
    (h : ∀ i x, xs[i]? = some x → f i x = g i x) : xs.mapIdx f = xs.mapIdx g := by
  refine List.ext_getElem? fun i => ?_
  rw [List.getElem?_mapIdx, List.getElem?_mapIdx]
  cases hx : xs[i]? with
  | none => rfl
  | some x => rw [Option.map_some, Option.map_some, h i x hx]

/-- Pieces of one row each are the rows. -/
theorem take_one_drop_flatMap {α β : Type} {f : α → List β} {l : List α}
    (h : ∀ a ∈ l, (f a).length = 1) {j : Nat} {a : α} (hj : l[j]? = some a) :
    ((l.flatMap f).drop j).take 1 = f a := by
  induction l generalizing j with
  | nil => exact absurd hj (by simp)
  | cons c l ih =>
    obtain ⟨x, hx⟩ := List.length_eq_one_iff.mp (h c List.mem_cons_self)
    rw [List.flatMap_cons, hx, List.singleton_append]
    cases j with
    | zero =>
      cases hj
      exact hx.symm
    | succ j => exact ih (fun a ha => h a (List.mem_cons_of_mem _ ha)) hj

theorem zipWith_flatMap {α β γ δ : Type} (g : β → γ → δ) {f : α → List β} {f' : α → List γ}
    {l : List α} (h : ∀ a ∈ l, (f a).length = (f' a).length) :
    List.zipWith g (l.flatMap f) (l.flatMap f') =
      l.flatMap fun a => List.zipWith g (f a) (f' a) := by
  induction l with
  | nil => rfl
  | cons a l ih =>
    rw [List.flatMap_cons, List.flatMap_cons, List.flatMap_cons,
      List.zipWith_append (h a List.mem_cons_self),
      ih fun b hb => h b (List.mem_cons_of_mem _ hb)]

/-! ## One pass over all tokens -/

variable {H P Λ : Type}

namespace QLlama

variable (net : QLlama H P Λ) (b : Block H P)

def queries (xs : List H) : List P :=
  xs.mapIdx fun p x => net.rotate p (b.wq (b.attnNorm x))

/-- Each key is rotated with its own position. -/
def keys (xs : List H) : List P :=
  xs.mapIdx fun j x => net.rotate j (b.wk (b.attnNorm x))

def values (b : Block H P) (xs : List H) : List P :=
  xs.map fun x => b.wv (b.attnNorm x)

/-- The keys and values of the positions `0..p`. -/
def past (xs : List H) (p : Nat) : List (P × P) :=
  ((net.keys b xs).zip (values b xs)).take (p + 1)

def mixed (xs : List H) : List P :=
  (net.queries b xs).mapIdx fun p q => net.mix q (net.past b xs p)

def layer (xs : List H) : List H :=
  List.zipWith (net.closeRow b) xs (net.mixed b xs)

/-- The hidden states of all tokens before layer `l`. -/
def states (l : Nat) (ts : List Token) : List H :=
  (net.blocks.take l).foldl (fun xs b => net.layer b xs) (ts.map net.embed)

variable {net b}

@[simp] theorem length_queries (xs : List H) : (net.queries b xs).length = xs.length :=
  List.length_mapIdx

@[simp] theorem length_keys (xs : List H) : (net.keys b xs).length = xs.length :=
  List.length_mapIdx

@[simp] theorem length_values (xs : List H) : (values b xs).length = xs.length :=
  List.length_map _

@[simp] theorem length_mixed (xs : List H) : (net.mixed b xs).length = xs.length := by
  rw [mixed, List.length_mapIdx, length_queries]

@[simp] theorem length_layer (xs : List H) : (net.layer b xs).length = xs.length := by
  rw [layer, List.length_zipWith, length_mixed, Nat.min_self]

@[simp] theorem length_states (l : Nat) (ts : List Token) :
    (net.states l ts).length = ts.length := by
  unfold states
  refine List.foldlRecOn (net.blocks.take l) _
    (motive := fun (xs : List H) => xs.length = ts.length) ?_ ?_
  · exact List.length_map _
  · intro xs hxs b _
    rw [length_layer, hxs]

theorem states_succ {l : Nat} (hb : net.blocks[l]? = some b) (ts : List Token) :
    net.states (l + 1) ts = net.layer b (net.states l ts) := by
  unfold states
  rw [List.take_add_one, hb, List.foldl_append]
  rfl

theorem keys_take (xs : List H) (n : Nat) : net.keys b (xs.take n) = (net.keys b xs).take n :=
  (take_mapIdx _ xs n).symm

theorem values_take (xs : List H) (n : Nat) : values b (xs.take n) = (values b xs).take n :=
  List.map_take

/-- A position does not see what comes later. -/
theorem past_take (xs : List H) {p n : Nat} (h : p < n) :
    net.past b (xs.take n) p = net.past b xs p := by
  rw [past, keys_take, values_take, List.zip, ← List.take_zipWith, List.take_take,
    Nat.min_eq_left h, past, List.zip]

theorem mixed_take (xs : List H) (n : Nat) :
    net.mixed b (xs.take n) = (net.mixed b xs).take n := by
  have hq : net.queries b (xs.take n) = (net.queries b xs).take n := (take_mapIdx _ xs n).symm
  rw [mixed, mixed, hq, take_mapIdx]
  refine List.ext_getElem? fun i => ?_
  rw [List.getElem?_mapIdx, List.getElem?_mapIdx, List.getElem?_take]
  split
  · next hi => rw [past_take xs hi]
  · rfl

theorem layer_take (xs : List H) (n : Nat) :
    net.layer b (xs.take n) = (net.layer b xs).take n := by
  rw [layer, layer, List.take_zipWith, mixed_take]

/-- The states of some tokens do not depend on what follows them. -/
theorem states_take (l : Nat) (ts : List Token) (n : Nat) :
    net.states l (ts.take n) = (net.states l ts).take n := by
  unfold states
  rw [List.map_take]
  generalize ts.map net.embed = xs
  induction net.blocks.take l generalizing xs with
  | nil => rfl
  | cons b bs ih => rw [List.foldl_cons, List.foldl_cons, layer_take, ih]

end QLlama

/-! ## What the mask leaves -/

theorem filterMap_causal {α : Type} (a : Nat) (cells : List α) (s : Nat) :
    ((cells.zip ((List.range' s cells.length).map fun j => decide (a < j))).filterMap
      fun c => if c.2 then none else some c.1) = cells.take (a + 1 - s) := by
  induction cells generalizing s with
  | nil => rw [List.take_nil]; rfl
  | cons c cells ih =>
    rw [List.length_cons, List.range'_succ, List.map_cons, List.zip_cons_cons]
    by_cases hs : a < s
    · have h0 : a + 1 - s = 0 := by omega
      have h1 : a + 1 - (s + 1) = 0 := by omega
      rw [List.filterMap_cons_none (by rw [decide_eq_true hs]; rfl), ih, h0, h1, List.take_zero,
        List.take_zero]
    · have h1 : a + 1 - s = a + 1 - (s + 1) + 1 := by omega
      rw [List.filterMap_cons_some (by rw [decide_eq_false hs]; rfl), ih, h1,
        List.take_succ_cons]

/-- The mask of a pass that adds `t` positions after the first `pos`, as `causal_mask` gives
    it. -/
def MaskOf (t pos : Nat) (mask : Option (List (List Bool))) : Prop :=
  mask = none ∧ t = 1 ∨ mask = some ((List.range t).map fun i =>
    (List.range (pos + t)).map fun j => decide (pos + i < j))

/-- The query at `pos + i` sees the positions up to its own. -/
theorem visible_of_maskOf {t pos : Nat} {mask : Option (List (List Bool))}
    (h : MaskOf t pos mask) {k v : List P} (hlen : (k.zip v).length = pos + t) {i : Nat}
    (hi : i < t) :
    visible k v (mask.map fun m => m.getD i []) = (k.zip v).take (pos + i + 1) := by
  rcases h with ⟨hm, ht⟩ | hm
  · have h0 : pos + i + 1 = (k.zip v).length := by omega
    rw [hm, h0, List.take_length]
    rfl
  · have hrow : ((List.range t).map fun i =>
        (List.range (pos + t)).map fun j => decide (pos + i < j)).getD i [] =
        (List.range' 0 (k.zip v).length).map fun j => decide (pos + i < j) := by
      rw [List.getD_eq_getElem?_getD, List.getElem?_map, List.getElem?_range hi, hlen,
        List.range_eq_range']
      rfl
    rw [hm, Option.map_some, hrow]
    exact filterMap_causal (pos + i) (k.zip v) 0

/-! ## Lanes -/

/-- A sequence in a pass: the tokens its cache covers, and those to be added. -/
structure Lane where
  old : List Token
  new : List Token

namespace Lane

def all (a : Lane) : List Token :=
  a.old ++ a.new

/-- The hidden states of the new tokens before layer `l`. -/
def rows (net : QLlama H P Λ) (l : Nat) (a : Lane) : List H :=
  (net.states l a.all).drop a.old.length

def newQueries (net : QLlama H P Λ) (b : Block H P) (l : Nat) (a : Lane) : List P :=
  (a.rows net l).mapIdx fun n x => net.rotate (a.old.length + n) (b.wq (b.attnNorm x))

def newKeys (net : QLlama H P Λ) (b : Block H P) (l : Nat) (a : Lane) : List P :=
  (a.rows net l).mapIdx fun n x => net.rotate (a.old.length + n) (b.wk (b.attnNorm x))

def newValues (net : QLlama H P Λ) (b : Block H P) (l : Nat) (a : Lane) : List P :=
  (a.rows net l).map fun x => b.wv (b.attnNorm x)

/-- What attention in layer `b` makes of them. -/
def mixedRows (net : QLlama H P Λ) (b : Block H P) (l : Nat) (a : Lane) : List P :=
  (net.mixed b (net.states l a.all)).drop a.old.length

variable {net : QLlama H P Λ} {b : Block H P} {l : Nat}

@[simp] theorem length_rows (a : Lane) : (a.rows net l).length = a.new.length := by
  rw [rows, List.length_drop, QLlama.length_states, all, List.length_append]
  exact Nat.add_sub_cancel_left _ _

@[simp] theorem length_mixedRows (a : Lane) : (a.mixedRows net b l).length = a.new.length := by
  rw [mixedRows, List.length_drop, QLlama.length_mixed, QLlama.length_states, all,
    List.length_append]
  exact Nat.add_sub_cancel_left _ _

theorem rows_zero (a : Lane) : a.rows net 0 = a.new.map net.embed := by
  unfold rows QLlama.states all
  rw [List.take_zero, List.foldl_nil, List.map_append]
  exact List.drop_left' (List.length_map _)

theorem rows_succ (hb : net.blocks[l]? = some b) (a : Lane) :
    a.rows net (l + 1) = List.zipWith (net.closeRow b) (a.rows net l) (a.mixedRows net b l) := by
  unfold rows mixedRows
  rw [QLlama.states_succ hb, QLlama.layer, List.drop_zipWith]

/-- The states of the tokens already covered. -/
theorem states_old (a : Lane) : net.states l a.old = (net.states l a.all).take a.old.length := by
  rw [← QLlama.states_take, all, List.take_left]

/-- The keys of the whole are those covered, and those of the new tokens at their positions. -/
theorem keys_all (a : Lane) : net.keys b (net.states l a.all) =
    net.keys b (net.states l a.old) ++ a.newKeys net b l := by
  conv_lhs => rw [← List.take_append_drop a.old.length (net.keys b (net.states l a.all))]
  rw [← QLlama.keys_take, ← states_old, newKeys, rows]
  congr 1
  exact drop_mapIdx _ _ _

theorem values_all (a : Lane) : QLlama.values b (net.states l a.all) =
    QLlama.values b (net.states l a.old) ++ a.newValues net b l := by
  conv_lhs => rw [← List.take_append_drop a.old.length (QLlama.values b (net.states l a.all))]
  rw [← QLlama.values_take, ← states_old, newValues, rows]
  congr 1
  exact (List.map_drop).symm

theorem queries_drop (a : Lane) :
    (net.queries b (net.states l a.all)).drop a.old.length = a.newQueries net b l :=
  drop_mapIdx _ _ _

end Lane

/-! ## Caches -/

/-- If there are tokens, the entry of layer `l` has exactly their keys and values. -/
def Filled (net : QLlama H P Λ) (l : Nat) (ts : List Token)
    (slot : Option (List P × List P)) : Prop :=
  ts ≠ [] → ∀ b, net.blocks[l]? = some b →
    slot = some (net.keys b (net.states l ts), QLlama.values b (net.states l ts))

/-- The cache covers the tokens `ts`, in every layer. -/
structure Clean (net : QLlama H P Λ) (ts : List Token) (kv : SeqKv P) : Prop where
  tokens_eq : kv.tokens = ts.length
  entries_length : kv.entries.length = net.blocks.length
  filled : ∀ l, Filled net l ts kv.entries[l]?.join

/-- The cache of a lane whose new tokens have gone through the first `i` layers. -/
structure Through (net : QLlama H P Λ) (i : Nat) (a : Lane) (kv : SeqKv P) : Prop where
  tokens_eq : kv.tokens = a.old.length
  entries_length : kv.entries.length = net.blocks.length
  filled : ∀ l, Filled net l (if l < i then a.all else a.old) kv.entries[l]?.join

/-- The read has seen the past of its query and nothing else, for the tokens `tss` of the
    sequences of the call. -/
structure Exact (net : QLlama H P Λ) (tss : List (List Token)) (r : Read P) (ts : List Token)
    (b : Block H P) : Prop where
  tokens : tss[r.member]? = some ts
  block : net.blocks[r.layer]? = some b
  pos_lt : r.pos < ts.length
  query : (net.queries b (net.states r.layer ts))[r.pos]? = some r.query
  seen : r.seen = net.past b (net.states r.layer ts) r.pos

/-- All that a pass over these lanes has read. -/
def AllExact (net : QLlama H P Λ) (lanes : List Lane) (w : Pass P) : Prop :=
  ∀ r ∈ w.reads, ∃ ts b, Exact net (lanes.map Lane.all) r ts b

/-- In layer `i`, once the first `j` lanes have attended. -/
structure At (net : QLlama H P Λ) (lanes : List Lane) (i j : Nat) (w : Pass P) : Prop where
  kvs_length : w.kvs.length = lanes.length
  through : ∀ k a kv, lanes[k]? = some a → w.kvs[k]? = some kv →
    Through net (if k < j then i + 1 else i) a kv
  exact : AllExact net lanes w

variable {net : QLlama H P Λ} {b : Block H P} {lanes : List Lane} {a : Lane} {w : Pass P}
  {i j : Nat} {kv : SeqKv P}

theorem Clean.through (h : Clean net a.old kv) : Through net 0 a kv := by
  refine ⟨h.tokens_eq, h.entries_length, fun l => ?_⟩
  rw [if_neg (Nat.not_lt_zero l)]
  exact h.filled l

theorem Through.clean (h : Through net net.blocks.length a kv) :
    Clean net a.all { kv with tokens := a.all.length } := by
  refine ⟨rfl, h.entries_length, fun l hne b hb => ?_⟩
  have hl : l < net.blocks.length := (List.getElem?_eq_some_iff.mp hb).1
  have hfilled := h.filled l
  rw [if_pos hl] at hfilled
  exact hfilled hne b hb

/-- The entry of the layer is put back with the new tokens. -/
theorem Through.set (h : Through net i a kv) (hb : net.blocks[i]? = some b) :
    Through net (i + 1) a (kv.setEntry i
      (some (net.keys b (net.states i a.all), QLlama.values b (net.states i a.all)))) := by
  refine ⟨h.tokens_eq, List.length_set.trans h.entries_length, fun l => ?_⟩
  have hi : i < kv.entries.length := by
    rw [h.entries_length]
    exact (List.getElem?_eq_some_iff.mp hb).1
  unfold SeqKv.setEntry
  by_cases hl : l = i
  · subst hl
    intro _ b' hb'
    rw [hb] at hb'
    cases hb'
    rw [List.getElem?_set_self hi, if_pos (Nat.lt_succ_self l)]
    rfl
  · have hlt : l < i + 1 ↔ l < i := by omega
    rw [List.getElem?_set_ne (Ne.symm hl)]
    simp only [hlt]
    exact h.filled l

theorem At.next (h : At net lanes i lanes.length w) : At net lanes (i + 1) 0 w := by
  refine ⟨h.kvs_length, fun k a kv ha hkv => ?_, h.exact⟩
  have hk : k < lanes.length := (List.getElem?_eq_some_iff.mp ha).1
  have hthrough := h.through k a kv ha hkv
  rw [if_pos hk] at hthrough
  rwa [if_neg (Nat.not_lt_zero k)]

/-! ## One layer -/

variable {fails : Nat → Bool}

theorem QLlama.meets_rope (x : List P) (pos t : Nat) {Q : List P → Pass P → Prop}
    {E : Pass P → Prop} (hQ : Q (x.mapIdx fun i p => net.rotate (pos + i) p) w) (hE : E w) :
    Meets (net.rope fails x pos t) w Q E :=
  Meets.require_bind (fun _ => meets_attempt hQ hE) fun _ => hE

theorem Pass.slot_of_getElem? (h : w.kvs[j]? = some kv) (l : Nat) :
    w.slot j l = kv.entries[l]?.join := by
  unfold Pass.slot
  rw [h]
  rfl

theorem Pass.getElem?_setSlot (w : Pass P) (j l : Nat) (slot : Option (List P × List P))
    (k : Nat) : (w.setSlot j l slot).kvs[k]? =
      if j = k then w.kvs[k]?.map fun kv => kv.setEntry l slot else w.kvs[k]? := by
  unfold Pass.setSlot
  rw [List.getElem?_modify, Option.map_eq_map]
  split
  · rfl
  · rw [Option.map_id_fun']
    rfl

/-- Only the last of two writes to an entry counts. -/
theorem SeqKv.setEntry_setEntry (kv : SeqKv P) (l : Nat) (s t : Option (List P × List P)) :
    (kv.setEntry l s).setEntry l t = kv.setEntry l t := by
  unfold SeqKv.setEntry
  rw [List.set_set]

theorem At.setSlot (h : At net lanes i j w) (ha : lanes[j]? = some a)
    (hb : net.blocks[i]? = some b) :
    At net lanes i (j + 1) ((w.setSlot j i none).setSlot j i
      (some (net.keys b (net.states i a.all), QLlama.values b (net.states i a.all)))) := by
  refine ⟨?_, ?_, h.exact⟩
  · exact (List.length_modify ..).trans ((List.length_modify ..).trans h.kvs_length)
  · intro k c kv hc hkv
    rw [Pass.getElem?_setSlot, Pass.getElem?_setSlot] at hkv
    by_cases hk : j = k
    · subst hk
      rw [ha] at hc
      cases hc
      rw [if_pos rfl, if_pos rfl, Option.map_map] at hkv
      obtain ⟨old, hold, rfl⟩ := Option.map_eq_some_iff.mp hkv
      have hthrough := h.through j a old ha hold
      rw [if_neg (Nat.lt_irrefl j)] at hthrough
      rw [if_pos (Nat.lt_succ_self j), Function.comp_apply, SeqKv.setEntry_setEntry]
      exact hthrough.set hb
    · have hlt : k < j + 1 ↔ k < j := by omega
      rw [if_neg hk, if_neg hk] at hkv
      simp only [hlt]
      exact h.through k c kv hc hkv

/-- What is put back covers the new tokens. -/
theorem meets_concat {slot : Option (List P × List P)} (hb : net.blocks[i]? = some b)
    (h : Filled net i a.old slot) {Q : List P × List P → Pass P → Prop} {E : Pass P → Prop}
    (hQ : Q (net.keys b (net.states i a.all), QLlama.values b (net.states i a.all)) w)
    (hE : E w) :
    Meets (QLlama.concat fails a.old.length slot (a.newKeys net b i) (a.newValues net b i)) w
      Q E := by
  rw [Lane.keys_all, Lane.values_all] at hQ
  by_cases hold : a.old = []
  · -- the sequence starts: whatever the entry was, it is replaced
    have hstates : net.states i a.old = [] := by
      rw [← List.length_eq_zero_iff, QLlama.length_states, hold, List.length_nil]
    rw [hstates] at hQ
    have hpos : ¬ 0 < a.old.length := by
      rw [hold]
      exact Nat.lt_irrefl 0
    unfold QLlama.concat
    split
    · rw [if_neg hpos]
      exact meets_pure hQ
    · exact meets_pure hQ
  · rw [h hold b hb]
    unfold QLlama.concat
    dsimp only
    rw [if_pos (List.length_pos_iff.mpr hold)]
    exact Meets.attempt_bind hE (Meets.attempt_bind hE (meets_pure hQ))

theorem exact_read (ha : lanes[j]? = some a) (hb : net.blocks[i]? = some b) {n : Nat} {p : P}
    (hp : (a.newQueries net b i)[n]? = some p) :
    Exact net (lanes.map Lane.all)
      ⟨j, i, a.old.length + n, p, net.past b (net.states i a.all) (a.old.length + n)⟩ a.all b := by
  rw [← Lane.queries_drop, List.getElem?_drop] at hp
  refine ⟨?_, hb, ?_, hp, rfl⟩
  · rw [List.getElem?_map, ha]
    rfl
  · have hlt := (List.getElem?_eq_some_iff.mp hp).1
    rwa [QLlama.length_queries, QLlama.length_states] at hlt

/-- Attention over the entry just put back. -/
theorem meets_attend (h : At net lanes i (j + 1) w) (ha : lanes[j]? = some a)
    (hb : net.blocks[i]? = some b) {mask : Option (List (List Bool))}
    (hmask : MaskOf a.new.length a.old.length mask) :
    Meets (net.attend fails j i a.old.length (a.newQueries net b i)
      (net.keys b (net.states i a.all)) (QLlama.values b (net.states i a.all)) mask) w
      (fun y w => y = a.mixedRows net b i ∧ At net lanes i (j + 1) w) (AllExact net lanes) := by
  have hcells : ((net.keys b (net.states i a.all)).zip
      (QLlama.values b (net.states i a.all))).length = a.old.length + a.new.length := by
    rw [List.length_zip, QLlama.length_keys, QLlama.length_values, Nat.min_self,
      QLlama.length_states, Lane.all, List.length_append]
  have hseen : ∀ n p, (a.newQueries net b i)[n]? = some p →
      visible (net.keys b (net.states i a.all)) (QLlama.values b (net.states i a.all))
        (mask.map fun m => m.getD n []) =
      net.past b (net.states i a.all) (a.old.length + n) := by
    intro n p hp
    have hlt := (List.getElem?_eq_some_iff.mp hp).1
    rw [Lane.newQueries, List.length_mapIdx, Lane.length_rows] at hlt
    exact visible_of_maskOf hmask hcells hlt
  refine Meets.alter_bind ?_
  generalize hw' : Pass.mk _ _ = w'
  have hAt : At net lanes i (j + 1) w' := by
    rw [← hw']
    refine ⟨h.kvs_length, h.through, ?_⟩
    intro r hr
    rcases List.mem_append.mp hr with hr | hr
    · exact h.exact r hr
    · rw [mapIdx_congr fun n p hp => congrArg (Read.mk j i (a.old.length + n) p) (hseen n p hp)]
        at hr
      obtain ⟨n, hn⟩ := List.mem_iff_getElem?.mp hr
      rw [List.getElem?_mapIdx] at hn
      obtain ⟨p, hp, rfl⟩ := Option.map_eq_some_iff.mp hn
      exact ⟨a.all, b, exact_read ha hb hp⟩
  refine Meets.attempt_bind hAt.exact (Meets.require_bind (fun _ => ?_) fun _ => hAt.exact)
  refine meets_attempt ⟨?_, hAt⟩ hAt.exact
  rw [Lane.mixedRows, QLlama.mixed, drop_mapIdx, Lane.queries_drop]
  exact mapIdx_congr fun n p hp => congrArg (net.mix p) (hseen n p hp)

/-- RoPE, the cache entry and attention of one lane. -/
theorem meets_attendCached (h : At net lanes i j w) (ha : lanes[j]? = some a)
    (hb : net.blocks[i]? = some b) {mask : Option (List (List Bool))}
    (hmask : MaskOf a.new.length a.old.length mask) (t : Nat) :
    Meets (net.attendCached fails j i a.old.length t
      (((a.rows net i).map b.attnNorm).map b.wq) (((a.rows net i).map b.attnNorm).map b.wk)
      (((a.rows net i).map b.attnNorm).map b.wv) mask) w
      (fun y w => y = a.mixedRows net b i ∧ At net lanes i (j + 1) w) (AllExact net lanes) := by
  have hE : ∀ slot, AllExact net lanes (w.setSlot j i slot) := fun _ => h.exact
  obtain ⟨kv, hkv⟩ : ∃ kv, w.kvs[j]? = some kv := by
    have hj := (List.getElem?_eq_some_iff.mp ha).1
    rw [← h.kvs_length] at hj
    exact ⟨_, List.getElem?_eq_getElem hj⟩
  have hthrough := h.through j a kv ha hkv
  rw [if_neg (Nat.lt_irrefl j)] at hthrough
  have hfilled := hthrough.filled i
  rw [if_neg (Nat.lt_irrefl i), ← Pass.slot_of_getElem? hkv] at hfilled
  rw [List.map_map, List.map_map, List.map_map]
  refine (net.meets_rope _ _ t (Q := fun q w' => q = a.newQueries net b i ∧ w = w') ?_
    h.exact).bind ?_
  · exact ⟨mapIdx_map _ _ _, rfl⟩
  rintro q _ ⟨rfl, rfl⟩
  refine (net.meets_rope _ _ t (Q := fun k w' => k = a.newKeys net b i ∧ w = w') ?_
    h.exact).bind ?_
  · exact ⟨mapIdx_map _ _ _, rfl⟩
  rintro k _ ⟨rfl, rfl⟩
  refine Meets.attempt_bind h.exact (Meets.read_bind (Meets.alter_bind ?_))
  refine (meets_concat hb hfilled (Q := fun kv w' => kv = (net.keys b (net.states i a.all),
    QLlama.values b (net.states i a.all)) ∧ w.setSlot j i none = w') ⟨rfl, rfl⟩ (hE none)).bind ?_
  rintro kv' _ ⟨rfl, rfl⟩
  exact Meets.alter_bind (meets_attend (h.setSlot ha hb) ha hb hmask)

theorem meets_project (x : List H) {E : Pass P → Prop} (hE : E w) :
    Meets (QLlama.project fails b x) w (fun r w' => r = ((x.map b.attnNorm).map b.wq,
      (x.map b.attnNorm).map b.wk, (x.map b.attnNorm).map b.wv) ∧ w = w') E :=
  Meets.attempt_bind hE <| Meets.attempt_bind hE <| Meets.attempt_bind hE <|
    Meets.attempt_bind hE <| meets_attempt ⟨rfl, rfl⟩ hE

/-- The end of a layer, once all lanes have attended. -/
theorem meets_close_lanes (h : At net lanes i lanes.length w) (hb : net.blocks[i]? = some b) :
    Meets (net.closeBlock fails b (lanes.flatMap (Lane.rows net i))
      (lanes.flatMap (Lane.mixedRows net b i))) w
      (fun x w => x = lanes.flatMap (Lane.rows net (i + 1)) ∧ At net lanes (i + 1) 0 w)
      (AllExact net lanes) := by
  refine (net.meets_closeBlock b _ _ h.exact).mono ?_ fun _ h => h
  rintro z _ ⟨rfl, _, rfl⟩
  refine ⟨?_, h.next⟩
  rw [zipWith_flatMap _ fun a _ => by rw [Lane.length_rows, Lane.length_mixedRows]]
  exact List.flatMap_congr fun a _ => (Lane.rows_succ hb a).symm

theorem meets_blockForwardSingle (h : At net [a] i 0 w) (hb : net.blocks[i]? = some b)
    {mask : Option (List (List Bool))} (hmask : MaskOf a.new.length a.old.length mask) (t : Nat) :
    Meets (net.blockForwardSingle fails b i ([a].flatMap (Lane.rows net i)) a.old.length t mask) w
      (fun x w => x = [a].flatMap (Lane.rows net (i + 1)) ∧ At net [a] (i + 1) 0 w)
      (AllExact net [a]) := by
  refine (meets_project _ h.exact).bind ?_
  rintro r _ ⟨rfl, rfl⟩
  rw [List.flatMap_singleton]
  refine (meets_attendCached h rfl hb hmask t).bind ?_
  rintro y w' ⟨rfl, hw'⟩
  rw [← List.flatMap_singleton (Lane.rows net i) a,
    ← List.flatMap_singleton (Lane.mixedRows net b i) a]
  exact meets_close_lanes hw' hb

/-- The row of a lane, where every lane adds one token. -/
theorem meets_rowAt (hone : ∀ a ∈ lanes, a.new.length = 1) (ha : lanes[j]? = some a) (f : H → P)
    {E : Pass P → Prop} (hE : E w) :
    Meets (QLlama.rowAt fails (((lanes.flatMap (Lane.rows net i)).map b.attnNorm).map f) j) w
      (fun x w' => x = ((a.rows net i).map b.attnNorm).map f ∧ w = w') E := by
  refine Meets.require_bind (fun _ => meets_attempt ⟨?_, rfl⟩ hE) fun _ => hE
  rw [List.map_map, List.map_map, ← List.map_drop, ← List.map_take,
    take_one_drop_flatMap (fun a ha => by rw [Lane.length_rows, hone a ha]) ha]

theorem meets_blockForwardBatch (h : At net lanes i 0 w) (hb : net.blocks[i]? = some b)
    (hone : ∀ a ∈ lanes, a.new.length = 1) :
    Meets (net.blockForwardBatch fails b i (lanes.flatMap (Lane.rows net i))
      (lanes.map fun a => a.old.length)) w
      (fun x w => x = lanes.flatMap (Lane.rows net (i + 1)) ∧ At net lanes (i + 1) 0 w)
      (AllExact net lanes) := by
  refine (meets_project _ h.exact).bind ?_
  rintro r _ ⟨rfl, rfl⟩
  refine (meets_foldlM (fun j ys w => ys = (lanes.take j).flatMap (Lane.mixedRows net b i) ∧
    At net lanes i j w) _ ?_ ⟨rfl, h⟩).bind ?_
  · rintro j p ys w hp ⟨rfl, hw⟩
    -- round `j` is for lane `j`, whose cache has `old` tokens
    obtain ⟨a, ha, rfl⟩ : ∃ a, lanes[j]? = some a ∧ p = (a.old.length, j) := by
      rw [List.getElem?_zipIdx, List.getElem?_map, Option.map_map] at hp
      obtain ⟨a, ha, rfl⟩ := Option.map_eq_some_iff.mp hp
      exact ⟨a, ha, by simp⟩
    refine (meets_rowAt hone ha b.wq hw.exact).bind ?_
    rintro q _ ⟨rfl, rfl⟩
    refine (meets_rowAt hone ha b.wk hw.exact).bind ?_
    rintro k _ ⟨rfl, rfl⟩
    refine (meets_rowAt hone ha b.wv hw.exact).bind ?_
    rintro v _ ⟨rfl, rfl⟩
    have hmask : MaskOf a.new.length a.old.length none :=
      Or.inl ⟨rfl, hone a (List.mem_of_getElem? ha)⟩
    refine (meets_attendCached hw ha hb hmask 1).bind ?_
    rintro y w' ⟨rfl, hw'⟩
    refine meets_pure ⟨?_, hw'⟩
    rw [List.take_add_one, ha, List.flatMap_append]
    exact congrArg _ (List.flatMap_singleton _ a).symm
  · rintro ys w' ⟨rfl, hw'⟩
    rw [List.length_zipIdx, List.length_map] at hw' ⊢
    rw [List.take_length]
    exact Meets.attempt_bind hw'.exact (meets_close_lanes hw' hb)

/-! ## All layers -/

/-- A loop over the layers, each of which does its part. -/
theorem meets_layers {step : List H → Block H P × Nat → Faulty (Pass P) (List H)}
    (hstep : ∀ i b w, net.blocks[i]? = some b → At net lanes i 0 w →
      Meets (step (lanes.flatMap (Lane.rows net i)) (b, i)) w
        (fun x w => x = lanes.flatMap (Lane.rows net (i + 1)) ∧ At net lanes (i + 1) 0 w)
        (AllExact net lanes)) (h : At net lanes 0 0 w) :
    Meets (net.blocks.zipIdx.foldlM step (lanes.flatMap fun a => a.new.map net.embed)) w
      (fun _ w => At net lanes net.blocks.length 0 w) (AllExact net lanes) := by
  have hzero : (lanes.flatMap fun a => a.new.map net.embed) = lanes.flatMap (Lane.rows net 0) :=
    List.flatMap_congr fun a _ => (Lane.rows_zero a).symm
  rw [hzero]
  refine (meets_foldlM (fun i x w => x = lanes.flatMap (Lane.rows net i) ∧ At net lanes i 0 w)
    net.blocks.zipIdx ?_ ⟨rfl, h⟩).mono ?_ fun _ h => h
  · rintro i p x w hp ⟨rfl, hw⟩
    rw [List.getElem?_zipIdx] at hp
    obtain ⟨b, hb, rfl⟩ := Option.map_eq_some_iff.mp hp
    rw [Nat.zero_add]
    exact hstep i b w hb hw
  · rintro x w' ⟨_, hw'⟩
    rwa [List.length_zipIdx] at hw'

/-- The caches cover what the lanes have, before a pass. -/
def Covers (net : QLlama H P Λ) (lanes : List Lane) (kvs : List (SeqKv P)) : Prop :=
  List.Forall₂ (fun a kv => Clean net a.old kv) lanes kvs

/-- A pass has succeeded: the caches cover the new tokens too. -/
structure Done (net : QLlama H P Λ) (lanes : List Lane) (w : Pass P) : Prop where
  clean : List.Forall₂ (fun a kv => Clean net a.all kv) lanes w.kvs
  exact : AllExact net lanes w

theorem Covers.at {kvs : List (SeqKv P)} (h : Covers net lanes kvs) :
    At net lanes 0 0 ⟨kvs, []⟩ := by
  obtain ⟨hlen, hclean⟩ := List.forall₂_iff_get.mp h
  refine ⟨hlen.symm, ?_, fun r hr => absurd hr List.not_mem_nil⟩
  intro k a kv ha hkv
  obtain ⟨h1, rfl⟩ := List.getElem?_eq_some_iff.mp ha
  obtain ⟨h2, rfl⟩ := List.getElem?_eq_some_iff.mp hkv
  exact (hclean k h1 h2).through

theorem Covers.map_len {kvs : List (SeqKv P)} (h : Covers net lanes kvs) :
    kvs.map SeqKv.len = lanes.map fun a => a.old.length := by
  induction h with
  | nil => rfl
  | cons hclean _ ih => rw [List.map_cons, List.map_cons, ih, SeqKv.len, hclean.tokens_eq]

/-- The counts of the caches are brought up to date. -/
theorem At.done (h : At net lanes net.blocks.length 0 w) {count : SeqKv P → Nat}
    (hcount : ∀ a ∈ lanes, ∀ kv, kv.tokens = a.old.length → count kv = a.all.length) :
    Done net lanes { w with kvs := w.kvs.map fun kv => { kv with tokens := count kv } } := by
  refine ⟨List.forall₂_iff_get.mpr ⟨?_, ?_⟩, h.exact⟩
  · rw [List.length_map, h.kvs_length]
  · intro k h1 h2
    have h2' : k < w.kvs.length := by rwa [List.length_map] at h2
    have hthrough := h.through k lanes[k] w.kvs[k] (List.getElem?_eq_getElem h1)
      (List.getElem?_eq_getElem h2')
    have hlen := hcount lanes[k] (List.getElem_mem h1) w.kvs[k] hthrough.tokens_eq
    simp only [List.get_eq_getElem, List.getElem_map, hlen]
    exact hthrough.clean

theorem meets_causalMask (t pos : Nat) {E : Pass P → Prop} (hE : E w) :
    Meets (QLlama.causalMask fails t pos) w (fun m w' => MaskOf t pos m ∧ w = w') E := by
  unfold QLlama.causalMask
  split
  · next ht => exact meets_pure ⟨Or.inl ⟨rfl, ht⟩, rfl⟩
  · exact meets_attempt ⟨Or.inr rfl, rfl⟩ hE

/-- The count of layers is checked before anything is done. -/
theorem meets_forwardHidden (hexact : AllExact net [a] w)
    (h : (∀ kv ∈ w.kvs, kv.entries.length = net.blocks.length) → At net [a] 0 0 w) :
    Meets (net.forwardHidden fails (a.new.map net.embed) a.old.length) w (fun _ => Done net [a])
      (AllExact net [a]) := by
  refine Meets.read_bind (Meets.require_bind (fun hlayers => ?_) fun _ => hexact)
  replace h := h hlayers
  refine (meets_causalMask _ _ hexact).bind ?_
  rintro mask _ ⟨hmask, rfl⟩
  rw [List.length_map] at hmask ⊢
  have hrows : a.new.map net.embed = [a].flatMap fun a => a.new.map net.embed :=
    (List.flatMap_singleton (fun a : Lane => a.new.map net.embed) a).symm
  rw [hrows]
  refine (meets_layers (fun i b w hb hw => meets_blockForwardSingle hw hb hmask _) h).bind ?_
  intro x w' hw'
  refine Meets.alter_bind (meets_pure (hw'.done ?_))
  intro c hc kv _
  rw [List.mem_singleton.mp hc, Lane.all, List.length_append]

theorem meets_decodeStep (h : At net lanes 0 0 w) (hone : ∀ a ∈ lanes, a.new.length = 1) :
    Meets (net.decodeStep fails (lanes.flatMap fun a => a.new.map net.embed)
      (lanes.map fun a => a.old.length)) w (fun _ => Done net lanes) (AllExact net lanes) := by
  refine Meets.read_bind (Meets.require_bind (fun _ => ?_) fun _ => h.exact)
  refine (meets_layers (fun i b w hb hw => meets_blockForwardBatch hw hb hone) h).bind ?_
  intro x w' hw'
  refine Meets.alter_bind (meets_pure (hw'.done ?_))
  intro a ha kv hkv
  rw [hkv, Lane.all, List.length_append, hone a ha]

/-- `prefill` from a cache that covers what comes before the chunk. -/
theorem meets_prefillPass (hexact : AllExact net [a] w)
    (h : (∀ kv ∈ w.kvs, kv.entries.length = net.blocks.length) → At net [a] 0 0 w)
    (wantLogits : Bool) :
    Meets (net.prefillPass fails a.new a.old.length wantLogits) w (fun _ => Done net [a])
      (AllExact net [a]) := by
  refine Meets.attempt_bind hexact ((meets_forwardHidden hexact h).bind ?_)
  intro x w' hw'
  cases wantLogits with
  | false => exact meets_pure hw'
  | true =>
    refine Meets.require_bind (fun _ => ?_) fun _ => hw'.exact
    refine (net.meets_output _ hw'.exact).bind ?_
    rintro l _ ⟨_, rfl⟩
    exact meets_attempt hw' hw'.exact

/-- `decode` from caches that cover all but the last token of each sequence. -/
theorem meets_decodePass (h : At net lanes 0 0 w) (hone : ∀ a ∈ lanes, a.new.length = 1) :
    Meets (net.decodePass fails (lanes.flatMap Lane.new) (lanes.map fun a => a.old.length)) w
      (fun _ => Done net lanes) (AllExact net lanes) := by
  refine Meets.attempt_bind h.exact ?_
  rw [List.map_flatMap]
  refine (meets_decodeStep h hone).bind ?_
  intro x w' hw'
  refine (net.meets_output x hw'.exact).bind ?_
  rintro l _ ⟨_, rfl⟩
  exact meets_attempt hw' hw'.exact

/-! ## The runtime -/

namespace BatchedLlama

variable {m : BatchedLlama P}

/-- The runtime holds exactly the tokens `ts` for the sequence. -/
def Holds (net : QLlama H P Λ) (m : BatchedLlama P) (id : Nat) (ts : List Token) : Prop :=
  ∃ kv, m.kvs id = some kv ∧ Clean net ts kv

theorem clean_clear (h : kv.clear.entries.length = net.blocks.length) :
    Clean net [] kv.clear :=
  ⟨rfl, h, fun _ hne => absurd rfl hne⟩

/-- The cache that a chunk extends. -/
theorem entry_clean {seq startPos : Nat} {old : List Token}
    (hold : startPos = 0 ∧ old = [] ∨ Holds net m seq old ∧ old.length = startPos)
    (hlayers : (m.entry net seq startPos).entries.length = net.blocks.length) :
    Clean net old (m.entry net seq startPos) := by
  unfold entry at hlayers ⊢
  dsimp only at hlayers ⊢
  by_cases h0 : startPos = 0
  · rw [if_pos h0] at hlayers ⊢
    have hnil : old = [] := by
      rcases hold with ⟨_, hnil⟩ | ⟨_, hlen⟩
      · exact hnil
      · exact List.eq_nil_of_length_eq_zero (hlen.trans h0)
    rw [hnil]
    exact clean_clear hlayers
  · obtain ⟨⟨kv, hkv, hclean⟩, _⟩ := hold.resolve_left fun h => h0 h.1
    rw [if_neg h0, hkv]
    exact hclean

/-- One chunk, and what it leaves. -/
theorem prefill_exact {seq startPos : Nat} {old : List Token}
    (hold : startPos = 0 ∧ old = [] ∨ Holds net m seq old ∧ old.length = startPos)
    (tokens : List Token) (wantLogits : Bool) :
    ((prefill net fails m seq tokens startPos wantLogits).1.isSome →
      Holds net (prefill net fails m seq tokens startPos wantLogits).2 seq (old ++ tokens)) ∧
    ∀ r ∈ (prefill net fails m seq tokens startPos wantLogits).2.reads,
      ∃ ts b, Exact net [old ++ tokens] r ts b := by
  have hpos : startPos = old.length := by
    rcases hold with ⟨h0, hnil⟩ | ⟨_, hlen⟩
    · rw [h0, hnil]
      rfl
    · exact hlen.symm
  unfold prefill
  dsimp only
  split
  · exact ⟨fun h => absurd h (by simp), fun r hr => absurd hr List.not_mem_nil⟩
  · have hpass : Meets (net.prefillPass fails tokens startPos wantLogits)
        ⟨[m.entry net seq startPos], []⟩ (fun _ => Done net [⟨old, tokens⟩])
        (AllExact net [⟨old, tokens⟩]) := by
      rw [hpos]
      refine meets_prefillPass (a := ⟨old, tokens⟩) (fun r hr => absurd hr List.not_mem_nil) ?_ _
      intro hlayers
      refine Covers.at (List.Forall₂.cons ?_ List.Forall₂.nil)
      rw [← hpos] at hlayers ⊢
      exact entry_clean hold (hlayers _ (List.mem_singleton_self _))
    obtain ⟨hret, hfail⟩ := hpass m.ops
    generalize net.prefillPass fails tokens startPos wantLogits
      (m.ops, ⟨[m.entry net seq startPos], []⟩) = r at hret hfail ⊢
    cases hres : r.1 with
    | none => exact ⟨fun h => absurd h (by simp), hfail hres⟩
    | some l =>
      have hdone := hret l hres
      refine ⟨fun _ => ?_, hdone.exact⟩
      obtain ⟨kv, kvs, hclean, _, hkvs⟩ := List.forall₂_cons_left_iff.mp hdone.clean
      refine ⟨kv, ?_, hclean⟩
      rw [hkvs]
      exact Function.update_self _ _ _

theorem prefill_frame (net : QLlama H P Λ) (fails : Nat → Bool) (m : BatchedLlama P) {seq id : Nat}
    (hid : id ≠ seq) (tokens : List Token) (startPos : Nat) (wantLogits : Bool) :
    (prefill net fails m seq tokens startPos wantLogits).2.kvs id = m.kvs id := by
  unfold prefill
  dsimp only
  split
  · exact Function.update_of_ne hid _ _
  · exact Function.update_of_ne hid _ _

/-! ### Batches -/

theorem takeKvs_frame {batch : List (Nat × Token)} {id : Nat} (hid : id ∉ batch.map Prod.fst)
    (kvs : Nat → Option (SeqKv P)) : (takeKvs kvs batch).2 id = kvs id := by
  induction batch generalizing kvs with
  | nil => rfl
  | cons p batch ih =>
    rw [List.map_cons, List.mem_cons, not_or] at hid
    unfold takeKvs
    split
    · rfl
    · dsimp only
      rw [ih hid.2, Function.update_of_ne hid.1]

/-- All caches of the batch are there to be taken out. -/
theorem takeKvs_some {R : Nat × Token → SeqKv P → Prop} {batch : List (Nat × Token)}
    (hn : (batch.map Prod.fst).Nodup) {kvs : Nat → Option (SeqKv P)}
    (h : ∀ p ∈ batch, ∃ kv, kvs p.1 = some kv ∧ R p kv) :
    ∃ taken, (takeKvs kvs batch).1 = some taken ∧ List.Forall₂ R batch taken := by
  induction batch generalizing kvs with
  | nil => exact ⟨[], rfl, List.Forall₂.nil⟩
  | cons p batch ih =>
    rw [List.map_cons, List.nodup_cons] at hn
    obtain ⟨kv, hkv, hR⟩ := h p List.mem_cons_self
    have hrest : ∀ q ∈ batch, ∃ kv, Function.update kvs p.1 none q.1 = some kv ∧ R q kv := by
      intro q hq
      have hne : q.1 ≠ p.1 := fun he => hn.1 (he ▸ List.mem_map_of_mem hq)
      rw [Function.update_of_ne hne]
      exact h q (List.mem_cons_of_mem _ hq)
    obtain ⟨taken, htaken, hall⟩ := ih hn.2 hrest
    refine ⟨kv :: taken, ?_, List.Forall₂.cons hR hall⟩
    unfold takeKvs
    rw [hkv]
    dsimp only
    rw [htaken]
    rfl

theorem putKvs_frame {batch : List (Nat × Token)} {id : Nat} (hid : id ∉ batch.map Prod.fst)
    (kvs : Nat → Option (SeqKv P)) (taken : List (SeqKv P)) :
    putKvs kvs batch taken id = kvs id := by
  unfold putKvs
  induction batch generalizing kvs taken with
  | nil => rfl
  | cons p batch ih =>
    rw [List.map_cons, List.mem_cons, not_or] at hid
    cases taken with
    | nil => rfl
    | cons kv taken =>
      rw [List.zip_cons_cons, List.foldl_cons, ih hid.2, Function.update_of_ne hid.1]

theorem putKvs_of_mem {R : Nat × Token → SeqKv P → Prop} {batch : List (Nat × Token)}
    (hn : (batch.map Prod.fst).Nodup) {taken : List (SeqKv P)} (h : List.Forall₂ R batch taken)
    (kvs : Nat → Option (SeqKv P)) {p : Nat × Token} (hp : p ∈ batch) :
    ∃ kv, putKvs kvs batch taken p.1 = some kv ∧ R p kv := by
  induction h generalizing kvs with
  | nil => exact absurd hp List.not_mem_nil
  | @cons q kv batch taken hR _ ih =>
    rw [List.map_cons, List.nodup_cons] at hn
    rcases List.mem_cons.mp hp with rfl | hp
    · exact ⟨kv, (putKvs_frame hn.1 _ taken).trans (Function.update_self _ _ _), hR⟩
    · exact ih hn.2 (Function.update kvs q.1 (some kv)) hp

/-- What a batch makes of the sequences in it. -/
def lanesOf (olds : Nat → List Token) (batch : List (Nat × Token)) : List Lane :=
  batch.map fun p => ⟨olds p.1, [p.2]⟩

/-- A batch, and what it leaves. -/
theorem decode_exact {batch : List (Nat × Token)} {olds : Nat → List Token}
    (hn : (batch.map Prod.fst).Nodup) (hold : ∀ p ∈ batch, Holds net m p.1 (olds p.1)) :
    ((decode net fails m batch).1.isSome →
      ∀ p ∈ batch, Holds net (decode net fails m batch).2 p.1 (olds p.1 ++ [p.2])) ∧
    ∀ r ∈ (decode net fails m batch).2.reads,
      ∃ ts b, Exact net (batch.map fun p => olds p.1 ++ [p.2]) r ts b := by
  obtain ⟨taken, htaken, hclean⟩ := takeKvs_some hn hold
  have hcovers : Covers net (lanesOf olds batch) taken := List.forall₂_map_left_iff.mpr hclean
  have hall : (lanesOf olds batch).map Lane.all = batch.map fun p => olds p.1 ++ [p.2] :=
    List.map_map
  have hpass : Meets (net.decodePass fails (batch.map Prod.snd) (taken.map SeqKv.len))
      ⟨taken, []⟩ (fun _ => Done net (lanesOf olds batch)) (AllExact net (lanesOf olds batch)) := by
    have htokens : batch.map Prod.snd = (lanesOf olds batch).flatMap Lane.new := by
      rw [lanesOf, List.flatMap_map]
      exact List.map_eq_flatMap
    rw [hcovers.map_len, htokens]
    refine meets_decodePass hcovers.at fun a ha => ?_
    obtain ⟨p, _, rfl⟩ := List.mem_map.mp ha
    rfl
  rw [← hall]
  unfold decode
  split
  · next hb =>
    rw [hb]
    exact ⟨fun _ p hp => absurd hp List.not_mem_nil, fun r hr => absurd hr List.not_mem_nil⟩
  · dsimp only
    rw [htaken]
    dsimp only
    obtain ⟨hret, hfail⟩ := hpass m.ops
    generalize net.decodePass fails (batch.map Prod.snd) (taken.map SeqKv.len)
      (m.ops, ⟨taken, []⟩) = r at hret hfail ⊢
    cases hres : r.1 with
    | none => exact ⟨fun h => absurd h (by simp), hfail hres⟩
    | some rows =>
      have hdone := hret rows hres
      refine ⟨fun _ p hp => ?_, hdone.exact⟩
      exact putKvs_of_mem hn (List.forall₂_map_left_iff.mp hdone.clean) _ hp

theorem decode_frame (net : QLlama H P Λ) (fails : Nat → Bool) (m : BatchedLlama P)
    {batch : List (Nat × Token)} {id : Nat} (hid : id ∉ batch.map Prod.fst) :
    (decode net fails m batch).2.kvs id = m.kvs id := by
  unfold decode
  split
  · rfl
  · dsimp only
    split
    · exact takeKvs_frame hid m.kvs
    · exact (putKvs_frame hid _ _).trans (takeKvs_frame hid m.kvs)

end BatchedLlama

end Cognitora.Infer.Llama

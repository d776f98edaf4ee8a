/-
  Chained digests: each step hashes the digest before it together with the next item.

  `foldl_inj`: when the step function is injective on the inputs that occur and never
  returns the seed, a digest determines the whole list of items under it.
  `getElem?_chain_eq_iff`: so it tells its place in the chain as well.
  `length_takeWhile_chain`: how long a chain stays among the digests of some other chains
  is the longest prefix its items share with one of theirs.
-/
import Mathlib.Data.Set.Function
import Mathlib.Data.List.Induction
import Mathlib.Data.List.Infix
import Mathlib.Order.MinMax

namespace Cognitora.Lib

variable {δ χ : Type*}

/-! ## Longest common prefix -/

/-- Length of the longest common prefix. -/
def commonLen [DecidableEq χ] : List χ → List χ → Nat
  | x :: xs, y :: ys => if x = y then commonLen xs ys + 1 else 0
  | _, _ => 0

theorem le_commonLen_iff [DecidableEq χ] (k : Nat) (a b : List χ) :
    k ≤ commonLen a b ↔ k ≤ a.length ∧ a.take k <+: b := by
  induction k generalizing a b with
  | zero => simp
  | succ k ih =>
    cases a with
    | nil => simp [commonLen]
    | cons x xs =>
      cases b with
      | nil => simp [commonLen]
      | cons y ys =>
        unfold commonLen
        rw [List.take_succ_cons, List.cons_prefix_cons, List.length_cons]
        split
        · next h => simp [h, ih]
        · next h => simp [h]

/-- Different lists of one length agree on the elements before the first difference. -/
theorem take_eq_take_iff_commonLen [DecidableEq χ] {a b : List χ} (hne : a ≠ b)
    (hlen : a.length = b.length) (k : Nat) : a.take k = b.take k ↔ k ≤ commonLen a b := by
  rw [le_commonLen_iff]
  constructor
  · intro htake
    refine ⟨?_, htake ▸ List.take_prefix k b⟩
    by_contra hk
    rw [List.take_of_length_le (by omega), List.take_of_length_le (by omega)] at htake
    exact hne htake
  · rintro ⟨hk, hprefix⟩
    rw [List.prefix_iff_eq_take.mp hprefix, List.length_take_of_le hk]

/-- The largest value of `f` on a list, 0 on the empty one. -/
def maxOver {ι : Type*} (f : ι → Nat) (l : List ι) : Nat :=
  (l.map f).foldr max 0

theorem le_maxOver_iff {ι : Type*} (f : ι → Nat) (l : List ι) (k : Nat) :
    k ≤ maxOver f l ↔ k = 0 ∨ ∃ b ∈ l, k ≤ f b := by
  unfold maxOver
  induction l with
  | nil => simp
  | cons b l ih =>
    rw [List.map_cons, List.foldr_cons, le_max_iff, ih]
    simp only [List.mem_cons, exists_eq_or_imp]
    tauto

theorem le_length_takeWhile_iff (p : δ → Bool) (l : List δ) (k : Nat) :
    k ≤ (l.takeWhile p).length ↔ k ≤ l.length ∧ ∀ x ∈ l.take k, p x = true := by
  induction l generalizing k with
  | nil => simp
  | cons x l ih =>
    cases k with
    | zero => simp
    | succ k =>
      rw [List.takeWhile_cons, List.take_succ_cons]
      split
      · next h => simp [h, ih]
      · next h => simp [h]

/-! ## Chains -/

section

variable (h : δ → χ → δ)

/-- The digests of a list of items: each one hashes the digest before it and its item. -/
def chain : δ → List χ → List δ
  | _, [] => []
  | s, c :: cs => h s c :: chain (h s c) cs

/-- The inputs `h` sees along a chain. -/
def chainInputs : δ → List χ → List (δ × χ)
  | _, [] => []
  | s, c :: cs => (s, c) :: chainInputs (h s c) cs

@[simp] theorem length_chain (s : δ) (l : List χ) : (chain h s l).length = l.length := by
  induction l generalizing s with
  | nil => rfl
  | cons c l ih => rw [chain, List.length_cons, List.length_cons, ih]

theorem chainInputs_append (s : δ) (l m : List χ) :
    chainInputs h s (l ++ m) = chainInputs h s l ++ chainInputs h (l.foldl h s) m := by
  induction l generalizing s with
  | nil => rfl
  | cons c l ih => rw [List.cons_append, chainInputs, chainInputs, ih, List.foldl_cons]; rfl

/-- The digests of a list are those of its non-empty prefixes. -/
theorem mem_chain (s : δ) (l : List χ) (d : δ) :
    d ∈ chain h s l ↔ ∃ p, p ≠ [] ∧ p <+: l ∧ p.foldl h s = d := by
  induction l generalizing s with
  | nil => simp [chain]
  | cons c l ih =>
    rw [chain, List.mem_cons, ih]
    constructor
    · rintro (rfl | ⟨p, _, hp, rfl⟩)
      · exact ⟨[c], List.cons_ne_nil _ _, by simp, rfl⟩
      · exact ⟨c :: p, List.cons_ne_nil _ _, by simpa using hp, rfl⟩
    · rintro ⟨p, hne, hp, rfl⟩
      cases p with
      | nil => exact absurd rfl hne
      | cons x p =>
        obtain ⟨rfl, hpl⟩ := List.cons_prefix_cons.mp hp
        cases p with
        | nil => exact Or.inl rfl
        | cons y p => exact Or.inr ⟨y :: p, List.cons_ne_nil _ _, hpl, rfl⟩

/-- A digest of a chain is what `h` makes of one of the inputs. -/
theorem mem_chain_iff_inputs (s : δ) (l : List χ) (d : δ) :
    d ∈ chain h s l ↔ ∃ x ∈ chainInputs h s l, h x.1 x.2 = d := by
  induction l generalizing s with
  | nil => simp [chain, chainInputs]
  | cons c l ih =>
    rw [chain, chainInputs, List.mem_cons, ih, List.exists_mem_cons_iff]
    exact or_congr_left eq_comm

theorem mem_of_mem_chainInputs {s : δ} {l : List χ} {x : δ × χ} (hx : x ∈ chainInputs h s l) :
    x.2 ∈ l := by
  induction l generalizing s with
  | nil => cases hx
  | cons c l ih =>
    rcases List.mem_cons.mp hx with rfl | hx
    · exact List.mem_cons_self
    · exact List.mem_cons_of_mem _ (ih hx)

theorem take_chain (s : δ) (l : List χ) (k : Nat) :
    (chain h s l).take k = chain h s (l.take k) := by
  induction l generalizing s k with
  | nil => simp [chain]
  | cons c l ih =>
    cases k with
    | zero => rfl
    | succ k => rw [chain, List.take_succ_cons, List.take_succ_cons, chain, ih]

theorem getElem?_chain (s : δ) {l : List χ} {i : Nat} (hi : i < l.length) :
    (chain h s l)[i]? = some ((l.take (i + 1)).foldl h s) := by
  induction l generalizing s i with
  | nil => cases hi
  | cons c l ih =>
    cases i with
    | zero => rfl
    | succ i =>
      rw [chain, List.getElem?_cons_succ, ih _ (Nat.lt_of_succ_lt_succ hi), List.take_succ_cons,
        List.foldl_cons]

variable {h} {S : Set (δ × χ)} {s : δ}

/-- Equal digests come from equal lists. The induction removes the last item, whose input to
    `h` the digest determines; the seed is no digest, so both lists end together. -/
theorem foldl_inj (hinj : Set.InjOn (Function.uncurry h) S)
    (hseed : ∀ x ∈ S, Function.uncurry h x ≠ s) {a b : List χ}
    (ha : ∀ x ∈ chainInputs h s a, x ∈ S) (hb : ∀ x ∈ chainInputs h s b, x ∈ S)
    (heq : a.foldl h s = b.foldl h s) : a = b := by
  have hlast : ∀ (l : List χ) (c : χ), (∀ x ∈ chainInputs h s (l ++ [c]), x ∈ S) →
      (∀ x ∈ chainInputs h s l, x ∈ S) ∧ (l.foldl h s, c) ∈ S := by
    intro l c hl
    rw [chainInputs_append] at hl
    exact ⟨fun x hx => hl x (List.mem_append_left _ hx),
      hl _ (List.mem_append_right _ List.mem_cons_self)⟩
  induction a using List.reverseRecOn generalizing b with
  | nil =>
    cases b using List.reverseRecOn with
    | nil => rfl
    | append_singleton b y =>
      rw [List.foldl_append] at heq
      exact absurd heq.symm (hseed _ (hlast b y hb).2)
  | append_singleton a x ih =>
    obtain ⟨ha', hxS⟩ := hlast a x ha
    cases b using List.reverseRecOn with
    | nil =>
      rw [List.foldl_append] at heq
      exact absurd heq (hseed _ hxS)
    | append_singleton b y =>
      obtain ⟨hb', hyS⟩ := hlast b y hb
      rw [List.foldl_append, List.foldl_append] at heq
      obtain ⟨hd, hxy⟩ := Prod.ext_iff.mp (hinj hxS hyS heq)
      rw [ih ha' hb' hd, show x = y from hxy]

theorem mem_chainInputs_mono {p l : List χ} (hp : p <+: l) {x : δ × χ}
    (hx : x ∈ chainInputs h s p) : x ∈ chainInputs h s l := by
  obtain ⟨m, rfl⟩ := hp
  rw [chainInputs_append]
  exact List.mem_append_left _ hx

/-- A digest tells its position in the chain and the items up to it. -/
theorem getElem?_chain_eq_iff (hinj : Set.InjOn (Function.uncurry h) S)
    (hseed : ∀ x ∈ S, Function.uncurry h x ≠ s) {a b : List χ}
    (ha : ∀ x ∈ chainInputs h s a, x ∈ S) (hb : ∀ x ∈ chainInputs h s b, x ∈ S)
    {i j : Nat} (hi : i < a.length) (hj : j < b.length) :
    (chain h s a)[i]? = (chain h s b)[j]? ↔ i = j ∧ a.take (i + 1) = b.take (i + 1) := by
  rw [getElem?_chain h s hi, getElem?_chain h s hj, Option.some.injEq]
  constructor
  · intro heq
    have htake := foldl_inj hinj hseed
      (fun x hx => ha x (mem_chainInputs_mono (List.take_prefix _ a) hx))
      (fun x hx => hb x (mem_chainInputs_mono (List.take_prefix _ b) hx)) heq
    have hij := congrArg List.length htake
    rw [List.length_take_of_le hi, List.length_take_of_le hj] at hij
    obtain rfl : i = j := Nat.succ.inj hij
    exact ⟨rfl, htake⟩
  · rintro ⟨rfl, htake⟩
    rw [htake]

/-- The digest of a non-empty prefix of one list is a digest of another list exactly if the
    prefix is one of that list too. -/
theorem foldl_mem_chain_iff (hinj : Set.InjOn (Function.uncurry h) S)
    (hseed : ∀ x ∈ S, Function.uncurry h x ≠ s) {p b : List χ} (hne : p ≠ [])
    (hp : ∀ x ∈ chainInputs h s p, x ∈ S) (hb : ∀ x ∈ chainInputs h s b, x ∈ S) :
    p.foldl h s ∈ chain h s b ↔ p <+: b := by
  rw [mem_chain]
  constructor
  · rintro ⟨q, _, hq, heq⟩
    have hqS : ∀ x ∈ chainInputs h s q, x ∈ S := fun x hx => hb x (mem_chainInputs_mono hq hx)
    rw [foldl_inj hinj hseed hp hqS heq.symm]
    exact hq
  · intro hpb
    exact ⟨p, hne, hpb, rfl⟩

/-- The chain of `a` stays among the digests of the lists `bs` for as long as `a` shares a
    prefix with one of them. -/
theorem length_takeWhile_chain [DecidableEq χ] (hinj : Set.InjOn (Function.uncurry h) S)
    (hseed : ∀ x ∈ S, Function.uncurry h x ≠ s) {a : List χ} {bs : List (List χ)}
    (ha : ∀ x ∈ chainInputs h s a, x ∈ S) (hbs : ∀ b ∈ bs, ∀ x ∈ chainInputs h s b, x ∈ S)
    (p : δ → Bool) (hp : ∀ d, p d = true ↔ ∃ b ∈ bs, d ∈ chain h s b) :
    ((chain h s a).takeWhile p).length = maxOver (commonLen a) bs := by
  apply eq_of_forall_le_iff
  intro k
  rw [le_length_takeWhile_iff, le_maxOver_iff, length_chain, take_chain]
  simp only [le_commonLen_iff]
  have hpre : ∀ q, q ≠ [] → q <+: a → (p (q.foldl h s) = true ↔ ∃ b ∈ bs, q <+: b) := by
    intro q hne hq
    rw [hp]
    have hqS : ∀ x ∈ chainInputs h s q, x ∈ S := fun x hx => ha x (mem_chainInputs_mono hq hx)
    constructor
    · rintro ⟨b, hb, hd⟩
      exact ⟨b, hb, (foldl_mem_chain_iff hinj hseed hne hqS (hbs b hb)).mp hd⟩
    · rintro ⟨b, hb, hqb⟩
      exact ⟨b, hb, (foldl_mem_chain_iff hinj hseed hne hqS (hbs b hb)).mpr hqb⟩
  constructor
  · rintro ⟨hk, hall⟩
    by_cases hk0 : k = 0
    · exact Or.inl hk0
    · have hne : a.take k ≠ [] := by
        intro hnil
        have hlen : (a.take k).length = 0 := by rw [hnil]; rfl
        rw [List.length_take] at hlen
        omega
      have hd := hall _ ((mem_chain h s _ _).mpr ⟨a.take k, hne, List.prefix_rfl, rfl⟩)
      obtain ⟨b, hb, hpb⟩ := (hpre _ hne (List.take_prefix k a)).mp hd
      exact Or.inr ⟨b, hb, hk, hpb⟩
  · rintro (rfl | ⟨b, hb, hk, hpb⟩)
    · simp [chain]
    · refine ⟨hk, ?_⟩
      intro d hd
      obtain ⟨q, hne, hq, rfl⟩ := (mem_chain h s _ _).mp hd
      exact (hpre q hne (hq.trans (List.take_prefix k a))).mpr ⟨b, hb, hq.trans hpb⟩

end

end Cognitora.Lib

/-
  Bounded channels between one sender and many readers.

  The sender has a list of sends to make, in order, and makes no other before the first is
  through: a send to a full channel waits for its reader. A schedule says who moves when. It is
  fair to the sender and to some of the readers; the others are silent.

  `served_iff`: under such a schedule the sender gets through and every reader that reads
  receives everything, exactly if each silent reader's channel has room for what it holds and
  all that is still to be sent to it. One silent reader without room stops everybody.
-/
import Mathlib.Data.Nat.Pairing
import Mathlib.Data.Set.Basic
import Mathlib.Logic.Encodable.Basic

namespace Cognitora.Lib

/-- The sends still to be made, what is in the channels, oldest first, and what was read. -/
structure Channels (ι α : Type*) where
  pending : List (ι × α)
  buffers : ι → List α
  delivered : ι → List α

inductive Turn (ι : Type*) where
  | send
  | read (i : ι)

theorem le_of_never_grows {f : Nat → Nat} {start : Nat}
    (hmono : ∀ k, start ≤ k → f (k + 1) ≤ f k) {j k : Nat} (hj : start ≤ j) (hjk : j ≤ k) :
    f k ≤ f j := by
  induction k, hjk using Nat.le_induction with
  | base => exact Nat.le_refl _
  | succ k hk ih => exact Nat.le_trans (hmono k (Nat.le_trans hj hk)) ih

/-- A rank that gets smaller later on whenever it is positive. -/
theorem eventually_zero {f : Nat → Nat} {start : Nat}
    (hprogress : ∀ k, start ≤ k → f k ≠ 0 → ∃ j, k ≤ j ∧ f j < f k) :
    ∃ k, start ≤ k ∧ f k = 0 := by
  have hrank : ∀ n k, start ≤ k → f k = n → ∃ j, start ≤ j ∧ f j = 0 := by
    intro n
    induction n using Nat.strongRecOn with
    | ind n ih =>
      intro k hk hn
      by_cases hzero : f k = 0
      · exact ⟨k, hk, hzero⟩
      · obtain ⟨j, hj, hlt⟩ := hprogress k hk hzero
        exact ih (f j) (hn ▸ hlt) j (Nat.le_trans hk hj) rfl
  exact hrank (f start) start (Nat.le_refl _) rfl

namespace Channels

variable {ι α : Type*} [DecidableEq ι]

def turn (cap : Nat) (n : Channels ι α) : Turn ι → Channels ι α
  | .send =>
    match n.pending with
    | [] => n
    | (i, a) :: rest =>
      if (n.buffers i).length < cap then
        { n with
          pending := rest
          buffers := Function.update n.buffers i (n.buffers i ++ [a]) }
      else n
  | .read i =>
    match n.buffers i with
    | [] => n
    | a :: rest =>
      { n with
        buffers := Function.update n.buffers i rest
        delivered := Function.update n.delivered i (n.delivered i ++ [a]) }

/-- The channels after the first `k` turns of a schedule. -/
def after (cap : Nat) (n : Channels ι α) (turns : Nat → Turn ι) : Nat → Channels ι α
  | 0 => n
  | k + 1 => (n.after cap turns k).turn cap (turns k)

/-- What is still to be sent to a reader. -/
def due (n : Channels ι α) (i : ι) : List α :=
  (n.pending.filter fun p => p.1 == i).map Prod.snd

/-- All that was or will be sent to a reader. -/
def total (n : Channels ι α) (i : ι) : List α :=
  n.delivered i ++ n.buffers i ++ n.due i

/-- The readers in `S` do not read. -/
def Silent (S : Set ι) (turns : Nat → Turn ι) : Prop :=
  ∀ k, ∀ i ∈ S, turns k ≠ .read i

/-- The sender and the other readers move again and again. -/
def Fair (S : Set ι) (turns : Nat → Turn ι) : Prop :=
  (∀ k, ∃ j, k ≤ j ∧ turns j = .send) ∧ ∀ i ∉ S, ∀ k, ∃ j, k ≤ j ∧ turns j = .read i

/-- The sender gets through, and the readers that are not silent receive everything. -/
def Served (cap : Nat) (n : Channels ι α) (S : Set ι) (turns : Nat → Turn ι) : Prop :=
  (∃ k, (n.after cap turns k).pending = []) ∧
    ∀ i ∉ S, ∃ k, (n.after cap turns k).delivered i = n.total i

variable {cap : Nat} {n : Channels ι α} {S : Set ι} {turns : Nat → Turn ι}

/-! ## One turn -/

/-- A send is made, or an event is read, or nothing happens. -/
theorem turn_cases (cap : Nat) (n : Channels ι α) (t : Turn ι) :
    (∃ i a rest, t = .send ∧ n.pending = (i, a) :: rest ∧ (n.buffers i).length < cap ∧
        n.turn cap t = ⟨rest, Function.update n.buffers i (n.buffers i ++ [a]), n.delivered⟩) ∨
      (∃ i a rest, t = .read i ∧ n.buffers i = a :: rest ∧
        n.turn cap t = ⟨n.pending, Function.update n.buffers i rest,
          Function.update n.delivered i (n.delivered i ++ [a])⟩) ∨
      n.turn cap t = n := by
  cases t with
  | send =>
    unfold turn
    dsimp only
    split
    · exact Or.inr (Or.inr rfl)
    · next i a rest hpending =>
      split
      · next hroom => exact Or.inl ⟨i, a, rest, rfl, hpending, hroom, rfl⟩
      · exact Or.inr (Or.inr rfl)
  | read i =>
    unfold turn
    dsimp only
    split
    · exact Or.inr (Or.inr rfl)
    · next a rest hbuffer => exact Or.inr (Or.inl ⟨i, a, rest, rfl, hbuffer, rfl⟩)

/-- Nothing is lost, duplicated or reordered. -/
theorem total_turn (cap : Nat) (n : Channels ι α) (t : Turn ι) (i : ι) :
    (n.turn cap t).total i = n.total i := by
  rcases turn_cases cap n t with ⟨j, a, rest, _, hp, _, hturn⟩ | ⟨j, a, rest, _, hb, hturn⟩ | hturn
  · rw [hturn]
    unfold total due
    dsimp only
    rw [hp]
    by_cases hij : i = j
    · subst hij
      simp
    · rw [Function.update_of_ne hij, List.filter_cons_of_neg (by simpa using Ne.symm hij)]
  · rw [hturn]
    unfold total due
    dsimp only
    by_cases hij : i = j
    · subst hij
      rw [Function.update_self, Function.update_self, hb, List.append_assoc (n.delivered i)]
      rfl
    · rw [Function.update_of_ne hij, Function.update_of_ne hij]
  · rw [hturn]

theorem buffers_turn_le (h : ∀ i, (n.buffers i).length ≤ cap) (t : Turn ι) (i : ι) :
    ((n.turn cap t).buffers i).length ≤ cap := by
  rcases turn_cases cap n t with ⟨j, a, rest, _, _, hr, hturn⟩ | ⟨j, a, rest, _, hb, hturn⟩ | hturn
  · rw [hturn]
    dsimp only
    by_cases hij : i = j
    · subst hij
      rw [Function.update_self, List.length_append]
      exact hr
    · rw [Function.update_of_ne hij]
      exact h i
  · rw [hturn]
    dsimp only
    by_cases hij : i = j
    · subst hij
      have hi := h i
      rw [hb, List.length_cons] at hi
      rw [Function.update_self]
      omega
    · rw [Function.update_of_ne hij]
      exact h i
  · rw [hturn]
    exact h i

/-- What a reader that does not read holds and will be sent stays the same number. -/
theorem load_turn {t : Turn ι} {i : ι} (ht : t ≠ .read i) :
    ((n.turn cap t).buffers i).length + ((n.turn cap t).due i).length =
      (n.buffers i).length + (n.due i).length := by
  have htotal := congrArg List.length (total_turn cap n t i)
  have hdelivered : (n.turn cap t).delivered i = n.delivered i := by
    rcases turn_cases cap n t with ⟨_, _, _, _, _, _, hturn⟩ | ⟨j, a, rest, rfl, _, hturn⟩ | hturn
    · rw [hturn]
    · rw [hturn]
      exact Function.update_of_ne (fun hij => ht (by rw [hij])) _ _
    · rw [hturn]
  unfold total at htotal
  rw [hdelivered] at htotal
  simp only [List.length_append] at htotal
  omega

theorem pending_turn_suffix (cap : Nat) (n : Channels ι α) (t : Turn ι) :
    (n.turn cap t).pending <:+ n.pending := by
  rcases turn_cases cap n t with ⟨i, a, rest, _, hp, _, hturn⟩ | ⟨_, _, _, _, _, hturn⟩ | hturn
  · rw [hturn, hp]
    exact List.suffix_cons _ _
  · simp only [hturn, List.suffix_rfl]
  · simp only [hturn, List.suffix_rfl]

/-- A turn that makes no send adds nothing to a channel. -/
theorem buffers_turn_of_pending {t : Turn ι} (h : (n.turn cap t).pending = n.pending) (i : ι) :
    ((n.turn cap t).buffers i).length ≤ (n.buffers i).length := by
  rcases turn_cases cap n t with ⟨j, a, rest, _, hp, _, hturn⟩ | ⟨j, a, rest, _, hb, hturn⟩ | hturn
  · rw [hturn, hp] at h
    exact absurd (congrArg List.length h) (by simp)
  · rw [hturn]
    dsimp only
    by_cases hij : i = j
    · subst hij
      rw [Function.update_self, hb]
      exact Nat.le_succ _
    · rw [Function.update_of_ne hij]
  · rw [hturn]

theorem buffers_read_lt (cap : Nat) {i : ι} (h : n.buffers i ≠ []) :
    ((n.turn cap (.read i)).buffers i).length < (n.buffers i).length := by
  unfold turn
  dsimp only
  split
  · next hb => exact absurd hb h
  · next a rest hb =>
    dsimp only
    rw [Function.update_self, hb]
    exact Nat.lt_succ_self _

theorem pending_send {i : ι} {a : α} {rest : List (ι × α)} (h : n.pending = (i, a) :: rest)
    (hroom : (n.buffers i).length < cap) : (n.turn cap .send).pending = rest := by
  unfold turn
  rw [h]
  dsimp only
  rw [if_pos hroom]

/-! ## Schedules -/

theorem total_after (cap : Nat) (n : Channels ι α) (turns : Nat → Turn ι) (k : Nat) (i : ι) :
    (n.after cap turns k).total i = n.total i := by
  induction k with
  | zero => rfl
  | succ k ih => rw [after, total_turn, ih]

theorem buffers_after_le (h : ∀ i, (n.buffers i).length ≤ cap) (turns : Nat → Turn ι) (k : Nat)
    (i : ι) : ((n.after cap turns k).buffers i).length ≤ cap := by
  induction k generalizing i with
  | zero => exact h i
  | succ k ih => exact buffers_turn_le ih _ i

theorem load_after (n : Channels ι α) (cap : Nat) (hsilent : Silent S turns) {i : ι} (hi : i ∈ S)
    (k : Nat) :
    ((n.after cap turns k).buffers i).length + ((n.after cap turns k).due i).length =
      (n.buffers i).length + (n.due i).length := by
  induction k with
  | zero => rfl
  | succ k ih => rw [after, load_turn (hsilent k i hi), ih]

/-- A sender that gets through has filled no silent reader's channel beyond its capacity. -/
theorem room_of_through (h : ∀ i, (n.buffers i).length ≤ cap) (hsilent : Silent S turns) {k : Nat}
    (hk : (n.after cap turns k).pending = []) {i : ι} (hi : i ∈ S) :
    (n.buffers i).length + (n.due i).length ≤ cap := by
  have hdue : (n.after cap turns k).due i = [] := by
    unfold due
    rw [hk]
    rfl
  have hload := load_after n cap hsilent hi k
  rw [hdue, List.length_nil, Nat.add_zero] at hload
  rw [← hload]
  exact buffers_after_le h turns k i

/-- With room in the silent channels the first send is made in the end. -/
theorem pending_progress (h : ∀ i, (n.buffers i).length ≤ cap) (hcap : 0 < cap)
    (hsilent : Silent S turns) (hfair : Fair S turns)
    (hroom : ∀ i ∈ S, (n.buffers i).length + (n.due i).length ≤ cap) {k : Nat}
    (hk : (n.after cap turns k).pending ≠ []) :
    ∃ j, k ≤ j ∧ (n.after cap turns (j + 1)).pending ≠ (n.after cap turns j).pending := by
  by_contra hstuck
  have hsame : ∀ j, k ≤ j →
      (n.after cap turns (j + 1)).pending = (n.after cap turns j).pending := by
    intro j hj
    by_contra hne
    exact hstuck ⟨j, hj, hne⟩
  obtain ⟨⟨i, a⟩, rest, hpending⟩ := List.exists_cons_of_ne_nil hk
  have hpend : ∀ j, k ≤ j → (n.after cap turns j).pending = (i, a) :: rest := by
    intro j hj
    induction j, hj using Nat.le_induction with
    | base => exact hpending
    | succ j hj ih => rw [hsame j hj, ih]
  -- the channel it waits for only gets emptier
  have hmono : ∀ j m, k ≤ j → j ≤ m →
      ((n.after cap turns m).buffers i).length ≤ ((n.after cap turns j).buffers i).length :=
    fun j m => le_of_never_grows (f := fun j => ((n.after cap turns j).buffers i).length)
      fun m hm => buffers_turn_of_pending (hsame m hm) i
  -- and is full whenever the sender tries
  have hfull : ∀ j, k ≤ j → turns j = .send → cap ≤ ((n.after cap turns j).buffers i).length := by
    intro j hj hsend
    by_contra hlt
    have hsent := pending_send (hpend j hj) (Nat.lt_of_not_le hlt)
    rw [← hsend] at hsent
    have hnext := hpend (j + 1) (Nat.le_succ_of_le hj)
    rw [after, hsent] at hnext
    exact absurd (congrArg List.length hnext) (by simp)
  by_cases hi : i ∈ S
  · obtain ⟨j, hj, hsend⟩ := hfair.1 k
    have hload := load_after n cap hsilent hi j
    have hdue : 0 < ((n.after cap turns j).due i).length := by
      unfold due
      rw [hpend j hj]
      simp
    have hlimit := hroom i hi
    have hblocked := hfull j hj hsend
    omega
  · obtain ⟨j, hj, hread⟩ := hfair.2 i hi k
    obtain ⟨m, hm, hsend⟩ := hfair.1 (j + 1)
    have hafter : ((n.after cap turns (j + 1)).buffers i).length < cap := by
      by_cases hempty : (n.after cap turns j).buffers i = []
      · have hle := hmono j (j + 1) hj (Nat.le_succ j)
        rw [hempty, List.length_nil] at hle
        omega
      · have hlt := buffers_read_lt cap hempty
        rw [← hread] at hlt
        exact Nat.lt_of_lt_of_le hlt (buffers_after_le h turns j i)
    have hle := hmono (j + 1) m (Nat.le_succ_of_le hj) hm
    have hblocked := hfull m (by omega) hsend
    omega

theorem pending_after_le (cap : Nat) (n : Channels ι α) (turns : Nat → Turn ι) (k : Nat) :
    (n.after cap turns (k + 1)).pending.length ≤ (n.after cap turns k).pending.length :=
  (pending_turn_suffix cap _ _).length_le

/-- With room in the silent channels the sender gets through. -/
theorem through_of_room (h : ∀ i, (n.buffers i).length ≤ cap) (hcap : 0 < cap)
    (hsilent : Silent S turns) (hfair : Fair S turns)
    (hroom : ∀ i ∈ S, (n.buffers i).length + (n.due i).length ≤ cap) :
    ∃ k, (n.after cap turns k).pending = [] := by
  have hprogress : ∀ k, 0 ≤ k → (n.after cap turns k).pending.length ≠ 0 →
      ∃ j, k ≤ j ∧ (n.after cap turns j).pending.length < (n.after cap turns k).pending.length := by
    intro k _ hk
    have hne : (n.after cap turns k).pending ≠ [] := fun hnil => hk (by rw [hnil]; rfl)
    obtain ⟨j, hj, hchange⟩ := pending_progress h hcap hsilent hfair hroom hne
    have hlt := Nat.lt_of_le_of_ne (pending_after_le cap n turns j) fun hlen =>
      hchange ((pending_turn_suffix cap _ _).eq_of_length hlen)
    have hle := le_of_never_grows (f := fun k => (n.after cap turns k).pending.length)
      (fun k _ => pending_after_le cap n turns k) (Nat.zero_le k) hj
    exact ⟨j + 1, Nat.le_succ_of_le hj, Nat.lt_of_lt_of_le hlt hle⟩
  obtain ⟨k, _, hk⟩ := eventually_zero hprogress
  exact ⟨k, List.eq_nil_of_length_eq_zero hk⟩

/-- Once the sender is through, a reader that reads receives everything. -/
theorem delivered_of_through (hfair : Fair S turns) {k : Nat}
    (hk : (n.after cap turns k).pending = []) {i : ι} (hi : i ∉ S) :
    ∃ j, (n.after cap turns j).delivered i = n.total i := by
  have hdone : ∀ j, k ≤ j → (n.after cap turns j).pending = [] := by
    intro j hj
    induction j, hj using Nat.le_induction with
    | base => exact hk
    | succ j hj ih =>
      have hsuffix := pending_turn_suffix cap (n.after cap turns j) (turns j)
      rw [ih] at hsuffix
      exact List.suffix_nil.mp hsuffix
  have hmono : ∀ j, k ≤ j → ((n.after cap turns (j + 1)).buffers i).length ≤
      ((n.after cap turns j).buffers i).length := by
    intro j hj
    exact buffers_turn_of_pending ((hdone (j + 1) (Nat.le_succ_of_le hj)).trans (hdone j hj).symm) i
  have hprogress : ∀ j, k ≤ j → ((n.after cap turns j).buffers i).length ≠ 0 →
      ∃ m, j ≤ m ∧ ((n.after cap turns m).buffers i).length <
        ((n.after cap turns j).buffers i).length := by
    intro j hj hne
    obtain ⟨m, hm, hread⟩ := hfair.2 i hi j
    have hle := le_of_never_grows (f := fun j => ((n.after cap turns j).buffers i).length)
      hmono hj hm
    by_cases hempty : (n.after cap turns m).buffers i = []
    · exact ⟨m, hm, by rw [hempty]; exact Nat.pos_of_ne_zero hne⟩
    · have hlt := buffers_read_lt cap hempty
      rw [← hread] at hlt
      exact ⟨m + 1, Nat.le_succ_of_le hm, Nat.lt_of_lt_of_le hlt hle⟩
  obtain ⟨j, hj, hempty⟩ := eventually_zero hprogress
  have htotal := total_after cap n turns j i
  refine ⟨j, ?_⟩
  rw [← htotal, total, due, hdone j hj, List.eq_nil_of_length_eq_zero hempty]
  simp

/-- The sender gets through and the readers that read receive everything, exactly if the silent
    readers' channels have room for all that is to be sent to them. -/
theorem served_iff (h : ∀ i, (n.buffers i).length ≤ cap) (hcap : 0 < cap)
    (hsilent : Silent S turns) (hfair : Fair S turns) :
    Served cap n S turns ↔ ∀ i ∈ S, (n.buffers i).length + (n.due i).length ≤ cap := by
  constructor
  · rintro ⟨⟨k, hk⟩, _⟩ i hi
    exact room_of_through h hsilent hk hi
  · intro hroom
    obtain ⟨k, hk⟩ := through_of_room h hcap hsilent hfair hroom
    exact ⟨⟨k, hk⟩, fun i hi => delivered_of_through hfair hk hi⟩

open Classical in
/-- Every second turn is the sender's; at the others the readers come round, silent ones left
    out. -/
noncomputable def roundRobin [Encodable ι] (S : Set ι) (k : Nat) : Turn ι :=
  if k % 2 = 0 then .send
  else
    match Encodable.decode (α := ι) (k / 2).unpair.1 with
    | some i => if i ∈ S then .send else .read i
    | none => .send

omit [DecidableEq ι] in
theorem silent_roundRobin [Encodable ι] (S : Set ι) : Silent S (roundRobin S) := by
  intro k i hi
  unfold roundRobin
  split
  · nofun
  · split
    · split
      · nofun
      · next j _ hj =>
        intro heq
        cases heq
        exact hj hi
    · nofun

omit [DecidableEq ι] in
theorem fair_roundRobin [Encodable ι] (S : Set ι) : Fair S (roundRobin S) := by
  constructor
  · intro k
    refine ⟨2 * k, by omega, ?_⟩
    unfold roundRobin
    rw [if_pos (by omega)]
  · intro i hi k
    have hle := Nat.right_le_pair (Encodable.encode i) k
    refine ⟨2 * Nat.pair (Encodable.encode i) k + 1, by omega, ?_⟩
    have hhalf : (2 * Nat.pair (Encodable.encode i) k + 1) / 2 =
        Nat.pair (Encodable.encode i) k := by
      omega
    unfold roundRobin
    rw [if_neg (by omega), hhalf, Nat.unpair_pair, Encodable.encodek]
    dsimp only
    rw [if_neg hi]

end Channels

end Cognitora.Lib

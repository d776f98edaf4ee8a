/-
  Token accounting and per-key limits (cgn-router `src/usage.rs`).

  An entry keeps one counter and one window, the number of a minute with the tokens charged
  in it; a charge stamped in another minute starts the window anew. `Entry.Records` relates
  an entry to the charges it received: the counter is their sum, the window is the sum of the
  latest of them, back to the last one stamped in another minute. `check_exact_iff`: the
  decision of `check_at` is the one the full history gives, exactly if a budget of 0 meets a
  subject that was charged before and, unless the budget is spent, charges of this minute
  that reach the rate limit do so without those before the last one of another minute.

  A charge and a check hold the map's lock on the entry, so each is one step. Counters are
  `u64` and wrap. The metrics are not modelled.
-/
import Mathlib.Algebra.Order.BigOperators.Group.List
import Mathlib.Algebra.Order.Group.Nat
import Mathlib.Algebra.Ring.Nat
import Mathlib.Data.List.Induction
import Cognitora.Auth.Principal
import Cognitora.Lib.Dict

namespace Cognitora.Router

open Cognitora.Auth Cognitora.Lib

def minuteSecs : Nat :=
  60

structure Entry where
  total : Nat
  /-- The number of a minute and the tokens charged in it. -/
  window : Nat × Nat

/-- `Entry::default`. -/
def Entry.empty : Entry where
  total := 0
  window := (0, 0)

/-- A token limit was hit. -/
structure Exceeded where
  limit : String
  message : String
  retryAfterSecs : Nat
  deriving DecidableEq

abbrev UsageLedger := AList fun _ : String => Entry

/-- A call of `charge_at`. -/
structure Charge where
  subject : String
  prompt : UInt32
  completion : UInt32
  now : Nat

namespace Charge

def tokens (c : Charge) : Nat :=
  c.prompt.toNat + c.completion.toNat

def minute (c : Charge) : Nat :=
  c.now / minuteSecs

end Charge

/-- What a charge does to its entry. -/
def Entry.charge (e : Entry) (c : Charge) : Entry :=
  let window := if e.window.1 ≠ c.minute then (c.minute, 0) else e.window
  { total := (e.total + c.tokens) % 2 ^ 64
    window := (window.1, (window.2 + c.tokens) % 2 ^ 64) }

namespace UsageLedger

/-- Refuse the request if `p` has spent its budget or this minute's allowance. -/
def checkAt (ledger : UsageLedger) (p : Principal) (now : Nat) : Except Exceeded Unit :=
  let tpm := p.limit "tpm"
  let budget := p.limit "budget"
  if tpm.isNone && budget.isNone then .ok ()
  else
    match ledger.lookup p.subject with
    | none => .ok ()
    | some e =>
      if budget.any (· ≤ e.total) then
        .error
          { limit := "budget"
            message := "token budget of " ++ toString (budget.getD 0) ++ " exhausted"
            retryAfterSecs := 0 }
      else if tpm.any fun tpm => e.window.1 == now / minuteSecs && tpm ≤ e.window.2 then
        .error
          { limit := "tpm"
            message := "rate of " ++ toString (tpm.getD 0) ++ " tokens per minute exceeded"
            retryAfterSecs := minuteSecs - now % minuteSecs }
      else .ok ()

/-- Record tokens against the subject. -/
def chargeAt (ledger : UsageLedger) (c : Charge) : UsageLedger :=
  ledger.insert c.subject (((ledger.lookup c.subject).getD .empty).charge c)

/-- The ledger after some charges. -/
def after (charges : List Charge) : UsageLedger :=
  charges.foldl chargeAt ∅

end UsageLedger

/-! ## The history -/

/-- The charges of a subject. -/
def chargesOf (subject : String) (charges : List Charge) : List Charge :=
  charges.filter (·.subject = subject)

/-- The tokens of some charges. -/
def spent (charges : List Charge) : Nat :=
  (charges.map Charge.tokens).sum

/-- The charges stamped in a minute. -/
def chargesIn (minute : Nat) (charges : List Charge) : List Charge :=
  charges.filter (·.minute = minute)

/-- The latest charges, back to the last one not stamped in the minute. -/
def latestIn (minute : Nat) (charges : List Charge) : List Charge :=
  charges.reverse.takeWhile (·.minute = minute)

@[simp] theorem spent_append (cs ds : List Charge) : spent (cs ++ ds) = spent cs + spent ds := by
  simp [spent]

@[simp] theorem spent_singleton (c : Charge) : spent [c] = c.tokens := by
  simp [spent]

@[simp] theorem spent_cons (c : Charge) (cs : List Charge) :
    spent (c :: cs) = c.tokens + spent cs := by
  simp [spent]

theorem spent_le_of_sublist {cs ds : List Charge} (h : cs.Sublist ds) : spent cs ≤ spent ds :=
  (h.map Charge.tokens).sum_le_sum (fun _ _ => Nat.zero_le _)

theorem chargesOf_concat (subject : String) (cs : List Charge) (c : Charge) :
    chargesOf subject (cs ++ [c]) =
      chargesOf subject cs ++ if c.subject = subject then [c] else [] := by
  by_cases h : c.subject = subject
  · simp [chargesOf, h]
  · simp [chargesOf, h]

theorem latestIn_concat (minute : Nat) (cs : List Charge) (c : Charge) :
    latestIn minute (cs ++ [c]) = if c.minute = minute then c :: latestIn minute cs else [] := by
  simp [latestIn, List.takeWhile_cons]

theorem latestIn_eq_nil_iff (minute : Nat) (cs : List Charge) :
    latestIn minute cs = [] ↔ ∀ c ∈ cs.getLast?, c.minute ≠ minute := by
  cases cs using List.reverseRecOn with
  | nil => simp [latestIn]
  | append_singleton cs c =>
    rw [latestIn_concat, List.getLast?_concat]
    by_cases h : c.minute = minute
    · simp [h]
    · simp [h]

/-- They are some of the charges stamped in the minute. -/
theorem spent_latestIn_le (minute : Nat) (cs : List Charge) :
    spent (latestIn minute cs) ≤ spent (chargesIn minute cs) := by
  induction cs using List.reverseRecOn with
  | nil => exact Nat.le_refl 0
  | append_singleton cs c ih =>
    rw [latestIn_concat, chargesIn, List.filter_append, spent_append]
    split
    · next h =>
      rw [spent_cons, List.filter_cons_of_pos (by simpa using h), List.filter_nil,
        spent_singleton]
      have : spent (latestIn minute cs) ≤ spent (cs.filter (·.minute = minute)) := ih
      omega
    · exact Nat.zero_le _

/-! ## An entry and the charges it received -/

/-- The entry is what the charges make of the empty one. -/
structure Entry.Records (e : Entry) (charges : List Charge) : Prop where
  total_eq : e.total = spent charges % 2 ^ 64
  window_eq : e.window.2 = spent (latestIn e.window.1 charges) % 2 ^ 64
  minute_eq : ∀ c ∈ charges.getLast?, c.minute = e.window.1

theorem Entry.records_empty : Entry.empty.Records [] :=
  ⟨rfl, rfl, by simp⟩

theorem Entry.Records.charge {e : Entry} {cs : List Charge} (h : e.Records cs) (c : Charge) :
    (e.charge c).Records (cs ++ [c]) := by
  refine ⟨?_, ?_, ?_⟩
  · show (e.total + c.tokens) % 2 ^ 64 = _
    rw [h.total_eq, spent_append, spent_singleton, Nat.mod_add_mod]
  · unfold Entry.charge
    dsimp only
    split
    · next hne =>
      have hnil : latestIn c.minute cs = [] :=
        (latestIn_eq_nil_iff _ _).mpr fun d hd heq => hne (h.minute_eq d hd ▸ heq)
      rw [latestIn_concat, if_pos rfl, spent_cons, hnil]
      simp [spent]
    · next heq =>
      rw [latestIn_concat, if_pos (not_not.mp heq).symm, spent_cons, h.window_eq,
        Nat.mod_add_mod, Nat.add_comm]
  · intro d hd
    rw [List.getLast?_concat, Option.mem_some_iff] at hd
    subst hd
    unfold Entry.charge
    dsimp only
    split
    · rfl
    · next heq => exact (not_not.mp heq).symm

theorem UsageLedger.after_concat (cs : List Charge) (c : Charge) :
    UsageLedger.after (cs ++ [c]) = (UsageLedger.after cs).chargeAt c := by
  simp [UsageLedger.after]

/-- The entry of a subject after some charges. -/
theorem UsageLedger.lookup_after (charges : List Charge) (subject : String) :
    match (UsageLedger.after charges).lookup subject with
    | none => chargesOf subject charges = []
    | some e => chargesOf subject charges ≠ [] ∧ e.Records (chargesOf subject charges) := by
  induction charges using List.reverseRecOn with
  | nil => rfl
  | append_singleton cs c ih =>
    rw [UsageLedger.after_concat, chargesOf_concat]
    unfold UsageLedger.chargeAt
    by_cases h : c.subject = subject
    · subst h
      rw [AList.lookup_insert, if_pos rfl]
      refine ⟨by simp, ?_⟩
      cases hlookup : (UsageLedger.after cs).lookup c.subject with
      | none =>
        rw [hlookup] at ih
        rw [show chargesOf c.subject cs = [] from ih]
        exact Entry.records_empty.charge c
      | some e =>
        rw [hlookup] at ih
        exact ih.2.charge c
    · rw [AList.lookup_insert_ne (Ne.symm h), if_neg h, List.append_nil]
      exact ih

/-! ## Decisions -/

/-- The counter reaches the principal's budget. -/
def Entry.AtBudget (e : Entry) (p : Principal) : Prop :=
  ∃ budget, p.limit "budget" = some budget ∧ budget ≤ e.total

/-- The window is this minute's and reaches the principal's rate limit. -/
def Entry.AtRate (e : Entry) (p : Principal) (now : Nat) : Prop :=
  ∃ tpm, p.limit "tpm" = some tpm ∧ e.window.1 = now / minuteSecs ∧ tpm ≤ e.window.2

/-- `check_at` refuses for the limit of this name. -/
def UsageLedger.RefusesFor (ledger : UsageLedger) (p : Principal) (now : Nat) (limit : String) :
    Prop :=
  ∃ e, ledger.checkAt p now = .error e ∧ e.limit = limit

namespace UsageLedger

variable {ledger : UsageLedger} {p : Principal} {e : Entry} (now : Nat)

theorem checkAt_of_lookup_none (h : ledger.lookup p.subject = none) :
    ledger.checkAt p now = .ok () := by
  unfold checkAt
  dsimp only
  rw [h]
  split <;> rfl

/-- The three ways a check of a known subject ends. -/
theorem checkAt_of_lookup_some (h : ledger.lookup p.subject = some e) :
    (e.AtBudget p ∧ ledger.RefusesFor p now "budget") ∨
      (¬ e.AtBudget p ∧ e.AtRate p now ∧ ledger.RefusesFor p now "tpm") ∨
        (¬ e.AtBudget p ∧ ¬ e.AtRate p now ∧ ledger.checkAt p now = .ok ()) := by
  have hbudget : (p.limit "budget").any (· ≤ e.total) = true ↔ e.AtBudget p := by
    simp [Option.any_eq_true, Entry.AtBudget]
  have hrate : (p.limit "tpm").any (fun tpm => e.window.1 == now / minuteSecs &&
      tpm ≤ e.window.2) = true ↔ e.AtRate p now := by
    simp [Option.any_eq_true, Entry.AtRate]
  unfold RefusesFor checkAt
  dsimp only
  rw [h]
  split
  · next hnone =>
    rw [Bool.and_eq_true, Option.isNone_iff_eq_none, Option.isNone_iff_eq_none] at hnone
    refine Or.inr (Or.inr ⟨?_, ?_, rfl⟩)
    · rw [← hbudget, hnone.2]
      exact Bool.false_ne_true
    · rw [← hrate, hnone.1]
      exact Bool.false_ne_true
  · dsimp only
    split
    · next hat => exact Or.inl ⟨hbudget.mp hat, _, rfl, rfl⟩
    · next hnot =>
      rw [hbudget] at hnot
      split
      · next hat => exact Or.inr (Or.inl ⟨hnot, hrate.mp hat, _, rfl, rfl⟩)
      · next hno => exact Or.inr (Or.inr ⟨hnot, fun hat => hno (hrate.mpr hat), rfl⟩)

/-- A check refuses for one limit only. -/
theorem RefusesFor.unique {now : Nat} {a b : String} (ha : ledger.RefusesFor p now a)
    (hb : ledger.RefusesFor p now b) : a = b := by
  obtain ⟨x, hx, rfl⟩ := ha
  obtain ⟨y, hy, rfl⟩ := hb
  rw [hx] at hy
  cases hy
  rfl

theorem not_refusesFor_of_ok {now : Nat} (h : ledger.checkAt p now = .ok ()) (limit : String) :
    ¬ ledger.RefusesFor p now limit := by
  rintro ⟨x, hx, _⟩
  rw [h] at hx
  cases hx

theorem refusesFor_budget_iff (h : ledger.lookup p.subject = some e) :
    ledger.RefusesFor p now "budget" ↔ e.AtBudget p := by
  rcases checkAt_of_lookup_some now h with ⟨hat, hr⟩ | ⟨hnot, _, hr⟩ | ⟨hnot, _, hok⟩
  · exact iff_of_true hr hat
  · exact iff_of_false (fun hb => absurd (hb.unique hr) (by decide)) hnot
  · exact iff_of_false (not_refusesFor_of_ok hok _) hnot

theorem refusesFor_tpm_iff (h : ledger.lookup p.subject = some e) :
    ledger.RefusesFor p now "tpm" ↔ ¬ e.AtBudget p ∧ e.AtRate p now := by
  rcases checkAt_of_lookup_some now h with ⟨hat, hr⟩ | ⟨hnot, hat, hr⟩ | ⟨_, hnot, hok⟩
  · exact iff_of_false (fun hb => absurd (hb.unique hr) (by decide)) fun hb => hb.1 hat
  · exact iff_of_true hr ⟨hnot, hat⟩
  · exact iff_of_false (not_refusesFor_of_ok hok _) fun hb => hnot hb.2

end UsageLedger

/-- What the full history says: the budget is spent. -/
def OverBudget (p : Principal) (charges : List Charge) : Prop :=
  ∃ budget, p.limit "budget" = some budget ∧ budget ≤ spent (chargesOf p.subject charges)

/-- What the full history says: the charges of this minute reach the rate limit. -/
def OverRate (p : Principal) (charges : List Charge) (now : Nat) : Prop :=
  ∃ tpm, p.limit "tpm" = some tpm ∧
    tpm ≤ spent (chargesIn (now / minuteSecs) (chargesOf p.subject charges))

/-- What the window can know: the latest charges are of this minute and reach the limit. -/
def LatestOverRate (p : Principal) (charges : List Charge) (now : Nat) : Prop :=
  ∃ tpm, p.limit "tpm" = some tpm ∧
    latestIn (now / minuteSecs) (chargesOf p.subject charges) ≠ [] ∧
      tpm ≤ spent (latestIn (now / minuteSecs) (chargesOf p.subject charges))

/-- `check_at` decides as the full history does. -/
def Exact (p : Principal) (charges : List Charge) (now : Nat) : Prop :=
  ((UsageLedger.after charges).RefusesFor p now "budget" ↔ OverBudget p charges) ∧
    (¬ OverBudget p charges →
      ((UsageLedger.after charges).RefusesFor p now "tpm" ↔ OverRate p charges now))

/-- The window has kept enough of this minute: if its charges reach the limit, then the
    latest ones do, and the subject's last charge is one of them. -/
def WindowKeeps (p : Principal) (charges : List Charge) (now : Nat) : Prop :=
  ∀ tpm, p.limit "tpm" = some tpm →
    tpm ≤ spent (chargesIn (now / minuteSecs) (chargesOf p.subject charges)) →
    latestIn (now / minuteSecs) (chargesOf p.subject charges) ≠ [] ∧
      tpm ≤ spent (latestIn (now / minuteSecs) (chargesOf p.subject charges))

section

variable {charges : List Charge} {p : Principal} {now : Nat}

theorem windowKeeps_iff :
    WindowKeeps p charges now ↔ (LatestOverRate p charges now ↔ OverRate p charges now) := by
  constructor
  · intro hkeeps
    constructor
    · rintro ⟨tpm, hlimit, _, hle⟩
      exact ⟨tpm, hlimit, hle.trans (spent_latestIn_le _ _)⟩
    · rintro ⟨tpm, hlimit, hle⟩
      exact ⟨tpm, hlimit, hkeeps tpm hlimit hle⟩
  · intro hiff tpm hlimit hle
    obtain ⟨tpm', hlimit', hlatest⟩ := hiff.mpr ⟨tpm, hlimit, hle⟩
    cases hlimit.symm.trans hlimit'
    exact hlatest

/-- A subject that was never charged is over a budget of 0 only. -/
theorem overBudget_iff_of_nil (h : chargesOf p.subject charges = []) :
    OverBudget p charges ↔ p.limit "budget" = some 0 := by
  unfold OverBudget
  rw [h]
  simp [spent]

/-- The counter reaches the budget exactly if the charges do. -/
theorem Entry.Records.atBudget_iff {e : Entry} (h : e.Records (chargesOf p.subject charges))
    (hfits : spent (chargesOf p.subject charges) < 2 ^ 64) :
    e.AtBudget p ↔ OverBudget p charges := by
  unfold Entry.AtBudget OverBudget
  rw [h.total_eq, Nat.mod_eq_of_lt hfits]

/-- The window reaches the rate limit exactly if the latest charges do. -/
theorem Entry.Records.atRate_iff {e : Entry} (h : e.Records (chargesOf p.subject charges))
    (hne : chargesOf p.subject charges ≠ [])
    (hfits : spent (chargesOf p.subject charges) < 2 ^ 64) :
    e.AtRate p now ↔ LatestOverRate p charges now := by
  have hminute : e.window.1 = now / minuteSecs ↔
      latestIn (now / minuteSecs) (chargesOf p.subject charges) ≠ [] := by
    rw [Ne, latestIn_eq_nil_iff]
    obtain ⟨c, hc⟩ := Option.isSome_iff_exists.mp (List.getLast?_isSome.mpr hne)
    rw [hc]
    simp [h.minute_eq c hc]
  refine exists_congr fun tpm => and_congr_right fun _ => ?_
  rw [hminute]
  refine and_congr_right fun hlatest => ?_
  have hle : spent (latestIn (now / minuteSecs) (chargesOf p.subject charges)) ≤
      spent (chargesOf p.subject charges) :=
    (spent_latestIn_le _ _).trans (spent_le_of_sublist List.filter_sublist)
  rw [h.window_eq, hminute.mpr hlatest, Nat.mod_eq_of_lt (by omega)]

end

/-- Decisions are exact for charges that fit a `u64`, exactly if the subject was charged when
    its budget is 0 and the window keeps enough of this minute when the budget is not spent. -/
theorem check_exact_iff (charges : List Charge) (hfits : spent charges < 2 ^ 64) (p : Principal)
    (now : Nat) :
    Exact p charges now ↔
      (p.limit "budget" = some 0 → chargesOf p.subject charges ≠ []) ∧
        (¬ OverBudget p charges → WindowKeeps p charges now) := by
  have hentry := UsageLedger.lookup_after charges p.subject
  have hfits : spent (chargesOf p.subject charges) < 2 ^ 64 :=
    (spent_le_of_sublist List.filter_sublist).trans_lt hfits
  unfold Exact
  cases hlookup : (UsageLedger.after charges).lookup p.subject with
  | none =>
    rw [hlookup] at hentry
    have hof : chargesOf p.subject charges = [] := hentry
    have hno := UsageLedger.not_refusesFor_of_ok
      (UsageLedger.checkAt_of_lookup_none now hlookup)
    have hlatest : ¬ LatestOverRate p charges now := by
      rintro ⟨_, _, hne, _⟩
      exact hne (by rw [hof]; rfl)
    rw [windowKeeps_iff, iff_false_intro (hno "budget"), iff_false_intro (hno "tpm"),
      iff_false_intro hlatest, hof, overBudget_iff_of_nil hof]
    simp
  | some e =>
    rw [hlookup] at hentry
    obtain ⟨hne, hrecords⟩ := hentry
    rw [UsageLedger.refusesFor_budget_iff now hlookup,
      UsageLedger.refusesFor_tpm_iff now hlookup, hrecords.atBudget_iff hfits,
      hrecords.atRate_iff hne hfits, windowKeeps_iff]
    refine and_congr (iff_of_true Iff.rfl fun _ => hne) (imp_congr_right fun hunder => ?_)
    rw [and_iff_right hunder]

/-- A key with the given policy scopes. -/
def virtualKey (scopes : List String) : Principal where
  subject := "apikey:a"
  scopes := scopes
  kind := .apiKey

/-- A charge of prompt tokens to that key. -/
def chargeKey (tokens : UInt32) (now : Nat) : Charge where
  subject := "apikey:a"
  prompt := tokens
  completion := 0
  now := now

/-- Two charges of one minute are counted together. -/
theorem check_exact_one_minute :
    spent [chargeKey 60 61, chargeKey 40 62] < 2 ^ 64 ∧
      Exact (virtualKey ["tpm:100"]) [chargeKey 60 61, chargeKey 40 62] 63 := by
  have hbudget : (virtualKey ["tpm:100"]).limit "budget" = none := by decide +kernel
  have hrate : (virtualKey ["tpm:100"]).limit "tpm" = some 100 := by decide +kernel
  refine ⟨by decide, (check_exact_iff _ (by decide) _ _).mpr ⟨?_, fun _ tpm hlimit _ => ?_⟩⟩
  · rw [hbudget]
    exact nofun
  · cases hrate.symm.trans hlimit
    exact ⟨by decide, by decide⟩

/-- A charge stamped in the minute before, made a moment later, resets the window. -/
theorem late_stamp_resets_window :
    ¬ ∀ (charges : List Charge), spent charges < 2 ^ 64 → ∀ (p : Principal) (now : Nat),
      Exact p charges now := by
  intro hall
  obtain ⟨_, hrate⟩ := hall [chargeKey 100 60, chargeKey 1 59] (by decide)
    (virtualKey ["tpm:100"]) 61
  have hunder : ¬ OverBudget (virtualKey ["tpm:100"]) [chargeKey 100 60, chargeKey 1 59] := by
    rintro ⟨_, h, _⟩
    rw [show (virtualKey ["tpm:100"]).limit "budget" = none by decide +kernel] at h
    cases h
  have hover : OverRate (virtualKey ["tpm:100"]) [chargeKey 100 60, chargeKey 1 59] 61 :=
    ⟨100, by decide +kernel, by decide⟩
  obtain ⟨e, he, _⟩ := (hrate hunder).mpr hover
  have hok : (UsageLedger.after [chargeKey 100 60, chargeKey 1 59]).checkAt
      (virtualKey ["tpm:100"]) 61 = .ok () := by
    decide +kernel
  rw [hok] at he
  cases he

end Cognitora.Router

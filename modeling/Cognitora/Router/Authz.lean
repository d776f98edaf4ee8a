/-
  Authorization before a request and the charge after it (cgn-router `src/gateway/authz.rs`).

  The check reads what was charged so far; a request is charged when its response is done, so
  requests in flight are not counted. `overshoot_bounded`: from an empty ledger, however
  authorizations and charges interleave, the tokens charged to a subject with a budget stay
  below the budget plus its largest charge, in every state of a run in which the budget is not
  0, the requests in flight never carry the charged tokens over the budget when another one is
  authorized (so always if none is in flight), and the counter does not wrap.

  A request enters the model with the tokens it will be charged; one that ends without a
  charge is abandoned. `Billing.charges` is a history variable: no step reads it.
-/
import Cognitora.Lib.Chain
import Cognitora.Lib.Run
import Cognitora.Router.Usage

namespace Cognitora.Router

open Cognitora.Auth Cognitora.Lib

/-- Who a request runs as. -/
structure Caller where
  /-- Ledger key; empty when auth is off. -/
  subject : String
  /-- Server-assigned tenant; empty when auth is off. -/
  tenant : String

/-- Charge tokens, if there is anyone to charge. -/
def Caller.charge (caller : Caller) (ledger : UsageLedger) (prompt completion : UInt32)
    (now : Nat) : UsageLedger :=
  if caller.subject.isEmpty then ledger
  else ledger.chargeAt { subject := caller.subject, prompt, completion, now }

/-- The charge this is, if there is anyone to charge. -/
def Caller.bill (caller : Caller) (prompt completion : UInt32) (now : Nat) : List Charge :=
  if caller.subject.isEmpty then []
  else [{ subject := caller.subject, prompt, completion, now }]

theorem Caller.charge_eq (caller : Caller) (ledger : UsageLedger) (prompt completion : UInt32)
    (now : Nat) :
    caller.charge ledger prompt completion now =
      (caller.bill prompt completion now).foldl UsageLedger.chargeAt ledger := by
  unfold Caller.charge Caller.bill
  split <;> rfl

/-- An error response. -/
structure Response where
  status : Nat
  message : String
  type : String
  code : Option String
  retryAfter : Option Nat

def forbidden (message : String) : Response where
  status := 403
  message := message
  type := "permission_error"
  code := none
  retryAfter := none

/-- Check the scope, the model and the token limits. `principal` is `none` when auth is
    disabled, which grants everything. -/
def authorize (enforceScopes : Bool) (ledger : UsageLedger) (principal : Option Principal)
    (scope model : String) (now : Nat) : Except Response Caller :=
  match principal with
  | none => .ok { subject := "", tenant := "" }
  | some p =>
    if enforceScopes && !p.hasScope scope then
      .error (forbidden ("token lacks the `" ++ scope ++ "` scope"))
    else if !p.allowsModel model then
      .error (forbidden ("token may not use model `" ++ model ++ "`"))
    else
      match ledger.checkAt p now with
      | .error e =>
        .error
          { status := 429
            message := e.message
            type := "insufficient_quota"
            code := some e.limit
            retryAfter := if e.retryAfterSecs > 0 then some e.retryAfterSecs else none }
      | .ok () => .ok { subject := p.subject, tenant := p.tenant }

/-- An authorized principal passed the check of its limits. -/
theorem authorize_ok {enforceScopes : Bool} {ledger : UsageLedger} {p : Principal}
    {scope model : String} {now : Nat} {caller : Caller}
    (h : authorize enforceScopes ledger (some p) scope model now = .ok caller) :
    ledger.checkAt p now = .ok () ∧ caller = { subject := p.subject, tenant := p.tenant } := by
  unfold authorize at h
  dsimp only at h
  split at h
  · cases h
  · split at h
    · cases h
    · cases hcheck : ledger.checkAt p now with
      | error e =>
        rw [hcheck] at h
        cases h
      | ok u =>
        rw [hcheck] at h
        cases h
        exact ⟨rfl, rfl⟩

/-! ## Requests in flight -/

/-- An authorized request and the tokens it will be charged. -/
structure Request where
  caller : Caller
  prompt : UInt32
  completion : UInt32

def Request.tokens (r : Request) : Nat :=
  r.prompt.toNat + r.completion.toNat

/-- The ledger, the requests in flight and the charges so far. -/
structure Billing where
  ledger : UsageLedger
  inFlight : List Request
  charges : List Charge

namespace Billing

inductive Event where
  | authorize (principal : Option Principal) (scope model : String) (now : Nat)
      (prompt completion : UInt32)
  | charge (i : Nat) (now : Nat)
  | abandon (i : Nat)

def new : Billing where
  ledger := ∅
  inFlight := []
  charges := []

def step (enforceScopes : Bool) (w : Billing) : Event → Billing
  | .authorize principal scope model now prompt completion =>
    match Router.authorize enforceScopes w.ledger principal scope model now with
    | .error _ => w
    | .ok caller => { w with inFlight := { caller, prompt, completion } :: w.inFlight }
  | .charge i now =>
    match w.inFlight[i]? with
    | none => w
    | some r =>
      { ledger := r.caller.charge w.ledger r.prompt r.completion now
        inFlight := w.inFlight.eraseIdx i
        charges := w.charges ++ r.caller.bill r.prompt r.completion now }
  | .abandon i => { w with inFlight := w.inFlight.eraseIdx i }

/-- The tokens charged to the subject so far. -/
def charged (w : Billing) (subject : String) : Nat :=
  spent (chargesOf subject w.charges)

/-- The subject's largest charge so far. -/
def largest (w : Billing) (subject : String) : Nat :=
  maxOver Charge.tokens (chargesOf subject w.charges)

/-- The request will be charged to the subject. -/
def Bills (subject : String) (r : Request) : Prop :=
  r.caller.subject = subject ∧ r.caller.subject.isEmpty = false

instance (subject : String) (r : Request) : Decidable (Bills subject r) :=
  inferInstanceAs (Decidable (_ ∧ _))

/-- The subject's requests in flight. -/
def pending (w : Billing) (subject : String) : List Request :=
  w.inFlight.filter (Bills subject ·)

/-- The tokens of some requests. -/
def held (requests : List Request) : Nat :=
  (requests.map Request.tokens).sum

/-- Every principal of the subject has this budget. -/
def Event.Budgeted (subject : String) (budget : Nat) : Event → Prop
  | .authorize (some p) _ _ _ _ _ => p.subject = subject → p.limit "budget" = some budget
  | _ => True

/-- Requests in flight do not carry the charged tokens over the budget when another one is
    authorized, and the counter does not wrap. -/
def Event.Careful (subject : String) (budget : Nat) (w : Billing) : Event → Prop
  | .authorize (some p) _ _ _ _ _ =>
    p.subject = subject → w.charged subject < budget →
      w.charged subject + held (w.pending subject) < budget
  | .charge i _ => ∀ r ∈ w.inFlight[i]?, Bills subject r → w.charged subject + r.tokens < 2 ^ 64
  | _ => True

/-- What settling a request adds to the subject's charges. -/
theorem chargesOf_bill (charges : List Charge) (subject : String) (r : Request) (now : Nat) :
    chargesOf subject (charges ++ r.caller.bill r.prompt r.completion now) =
      chargesOf subject charges ++
        if Bills subject r then [⟨r.caller.subject, r.prompt, r.completion, now⟩] else [] := by
  unfold Caller.bill
  by_cases hempty : r.caller.subject.isEmpty = true
  · rw [if_pos hempty, List.append_nil, if_neg fun h => absurd hempty (Bool.eq_false_iff.mp h.2),
      List.append_nil]
  · rw [if_neg hempty, chargesOf_concat]
    by_cases hsubject : r.caller.subject = subject
    · rw [if_pos hsubject, if_pos ⟨hsubject, Bool.eq_false_iff.mpr hempty⟩]
    · rw [if_neg hsubject, if_neg fun h => hsubject h.1]

/-! ## The reserve -/

theorem held_perm {l m : List Request} (h : l.Perm m) : held l = held m :=
  (h.map Request.tokens).sum_eq

theorem held_cons (r : Request) (l : List Request) : held (r :: l) = r.tokens + held l := by
  simp [held]

theorem le_held {r : Request} {l : List Request} (h : r ∈ l) : r.tokens ≤ held l :=
  List.single_le_sum (fun _ _ => Nat.zero_le _) _ (List.mem_map_of_mem h)

/-- What taking a request out leaves of the subject's. -/
theorem pending_eraseIdx {l : List Request} {i : Nat} {r : Request} (h : l[i]? = some r)
    (subject : String) :
    Bills subject r ∧ (l.filter (Bills subject ·)).Perm
        (r :: (l.eraseIdx i).filter (Bills subject ·)) ∨
      ¬ Bills subject r ∧ (l.filter (Bills subject ·)).Perm
        ((l.eraseIdx i).filter (Bills subject ·)) := by
  obtain ⟨hi, rfl⟩ := List.getElem?_eq_some_iff.mp h
  have hperm := (List.getElem_cons_eraseIdx_perm hi).filter (Bills subject ·)
  by_cases hbills : Bills subject l[i]
  · rw [List.filter_cons_of_pos (by simpa using hbills)] at hperm
    exact Or.inl ⟨hbills, hperm.symm⟩
  · rw [List.filter_cons_of_neg (by simpa using hbills)] at hperm
    exact Or.inr ⟨hbills, hperm.symm⟩

/-- What is charged and held exceeds the budget by less than one of its requests or charges,
    if at all. -/
def Covered (budget : Nat) (requests : List Request) (charges : List Charge) : Prop :=
  ∃ x, (x = 0 ∨ (∃ r ∈ requests, r.tokens = x) ∨ ∃ c ∈ charges, c.tokens = x) ∧
    spent charges + held requests < budget + x

namespace Covered

variable {budget : Nat} {r : Request} {requests : List Request} {charges : List Charge}

theorem spent_lt (h : Covered budget requests charges) :
    spent charges < budget + maxOver Charge.tokens charges := by
  obtain ⟨x, hx, hlt⟩ := h
  rcases hx with rfl | ⟨r, hr, rfl⟩ | ⟨c, hc, rfl⟩
  · omega
  · have := le_held hr
    omega
  · have : c.tokens ≤ maxOver Charge.tokens charges :=
      (le_maxOver_iff _ _ _).mpr (Or.inr ⟨c, hc, le_rfl⟩)
    omega

theorem perm {others : List Request} (h : Covered budget requests charges)
    (hperm : requests.Perm others) : Covered budget others charges := by
  obtain ⟨x, hx, hlt⟩ := h
  rw [held_perm hperm] at hlt
  refine ⟨x, hx.imp_right (Or.imp_left ?_), hlt⟩
  rintro ⟨q, hq, rfl⟩
  exact ⟨q, hperm.mem_iff.mp hq, rfl⟩

/-- One more request, while there is room. -/
theorem enter (h : spent charges + held requests < budget) (r : Request) :
    Covered budget (r :: requests) charges := by
  refine ⟨r.tokens, Or.inr (Or.inl ⟨r, List.mem_cons_self, rfl⟩), ?_⟩
  rw [held_cons]
  omega

theorem abandon (h : Covered budget (r :: requests) charges) : Covered budget requests charges := by
  obtain ⟨x, hx, hlt⟩ := h
  rw [held_cons] at hlt
  rcases hx with rfl | ⟨q, hq, rfl⟩ | hc
  · exact ⟨0, Or.inl rfl, by omega⟩
  · rcases List.mem_cons.mp hq with rfl | hq
    · exact ⟨0, Or.inl rfl, by omega⟩
    · exact ⟨_, Or.inr (Or.inl ⟨q, hq, rfl⟩), by omega⟩
  · exact ⟨x, Or.inr (Or.inr hc), by omega⟩

theorem charge (h : Covered budget (r :: requests) charges) {c : Charge}
    (hc : c.tokens = r.tokens) : Covered budget requests (charges ++ [c]) := by
  obtain ⟨x, hx, hlt⟩ := h
  rw [held_cons] at hlt
  refine ⟨x, ?_, by rw [spent_append, spent_singleton]; omega⟩
  rcases hx with rfl | ⟨q, hq, rfl⟩ | ⟨d, hd, rfl⟩
  · exact Or.inl rfl
  · rcases List.mem_cons.mp hq with rfl | hq
    · exact Or.inr (Or.inr ⟨c, List.mem_append_right _ List.mem_cons_self, hc⟩)
    · exact Or.inr (Or.inl ⟨q, hq, rfl⟩)
  · exact Or.inr (Or.inr ⟨d, List.mem_append_left _ hd, rfl⟩)

end Covered

/-! ## One step -/

/-- The ledger is that of the charges, the subject's counter has not wrapped, and its
    requests are covered. -/
structure Reserve (subject : String) (budget : Nat) (w : Billing) : Prop where
  ledger_eq : w.ledger = UsageLedger.after w.charges
  fits : w.charged subject < 2 ^ 64
  covered : Covered budget (w.pending subject) (chargesOf subject w.charges)

section

variable {enforceScopes : Bool} {subject : String} {budget : Nat} {w : Billing}

theorem reserve_new (hbudget : 0 < budget) : new.Reserve subject budget :=
  ⟨rfl, Nat.two_pow_pos 64, 0, Or.inl rfl, hbudget⟩

/-- A passed check means that less than the budget was charged. -/
theorem Reserve.charged_lt_of_check (h : w.Reserve subject budget) (hbudget : 0 < budget)
    {p : Principal} {now : Nat} (hp : p.subject = subject)
    (hlimit : p.limit "budget" = some budget) (hcheck : w.ledger.checkAt p now = .ok ()) :
    w.charged subject < budget := by
  subst hp
  have hentry := UsageLedger.lookup_after w.charges p.subject
  rw [h.ledger_eq] at hcheck
  cases hlookup : (UsageLedger.after w.charges).lookup p.subject with
  | none =>
    rw [hlookup] at hentry
    unfold charged
    rw [show chargesOf p.subject w.charges = [] from hentry]
    exact hbudget
  | some e =>
    rw [hlookup] at hentry
    have hnot : ¬ e.AtBudget p := fun hat =>
      UsageLedger.not_refusesFor_of_ok hcheck "budget"
        ((UsageLedger.refusesFor_budget_iff now hlookup).mpr hat)
    rw [hentry.2.atBudget_iff h.fits] at hnot
    exact Nat.lt_of_not_le fun hle => hnot ⟨budget, hlimit, hle⟩

theorem Reserve.authorize (h : w.Reserve subject budget) (hbudget : 0 < budget)
    (principal : Option Principal) (scope model : String) (now : Nat)
    (prompt completion : UInt32)
    (hlimit : (Event.authorize principal scope model now prompt completion).Budgeted subject
      budget)
    (hcareful : (Event.authorize principal scope model now prompt completion).Careful subject
      budget w) :
    (w.step enforceScopes (.authorize principal scope model now prompt completion)).Reserve
      subject budget := by
  unfold step
  dsimp only
  cases hauth : Router.authorize enforceScopes w.ledger principal scope model now with
  | error e => exact h
  | ok caller =>
    refine ⟨h.ledger_eq, h.fits, ?_⟩
    unfold pending
    by_cases hbills : Bills subject { caller, prompt, completion }
    · rw [List.filter_cons_of_pos (by simpa using hbills)]
      cases principal with
      | none =>
        -- a caller without a principal has no ledger key
        cases hauth
        exact absurd hbills.2 Bool.true_eq_false.mp
      | some p =>
        obtain ⟨hcheck, rfl⟩ := authorize_ok hauth
        have hp : p.subject = subject := hbills.1
        exact .enter (hcareful hp (h.charged_lt_of_check hbudget hp (hlimit hp) hcheck)) _
    · rw [List.filter_cons_of_neg (by simpa using hbills)]
      exact h.covered

theorem Reserve.abandon (h : w.Reserve subject budget) (i : Nat) :
    (w.step enforceScopes (.abandon i)).Reserve subject budget := by
  refine ⟨h.ledger_eq, h.fits, ?_⟩
  show Covered budget ((w.inFlight.eraseIdx i).filter (Bills subject ·)) _
  cases hi : w.inFlight[i]? with
  | none =>
    rw [List.eraseIdx_of_length_le (List.getElem?_eq_none_iff.mp hi)]
    exact h.covered
  | some r =>
    rcases pending_eraseIdx hi subject with ⟨_, hperm⟩ | ⟨_, hperm⟩
    · exact (h.covered.perm hperm).abandon
    · exact h.covered.perm hperm

theorem Reserve.charge (h : w.Reserve subject budget) (i : Nat) (now : Nat)
    (hcareful : (Event.charge i now).Careful subject budget w) :
    (w.step enforceScopes (.charge i now)).Reserve subject budget := by
  unfold step
  dsimp only
  cases hi : w.inFlight[i]? with
  | none => exact h
  | some r =>
    dsimp only
    have hledger : r.caller.charge w.ledger r.prompt r.completion now =
        UsageLedger.after (w.charges ++ r.caller.bill r.prompt r.completion now) := by
      rw [Caller.charge_eq, h.ledger_eq, UsageLedger.after, UsageLedger.after, List.foldl_append]
    have hcharges := chargesOf_bill w.charges subject r now
    rcases pending_eraseIdx hi subject with ⟨hbills, hperm⟩ | ⟨hbills, hperm⟩
    · rw [if_pos hbills] at hcharges
      refine ⟨hledger, ?_, ?_⟩
      · unfold charged
        rw [hcharges, spent_append, spent_singleton]
        exact hcareful r hi hbills
      · rw [hcharges]
        exact (h.covered.perm hperm).charge rfl
    · rw [if_neg hbills, List.append_nil] at hcharges
      refine ⟨hledger, ?_, ?_⟩
      · unfold charged
        rw [hcharges]
        exact h.fits
      · rw [hcharges]
        exact h.covered.perm hperm

end

/-! ## Whole runs -/

/-- From an empty ledger and with a budget above 0, a subject is charged less than the budget
    plus its largest charge, in every state of a run whose steps are careful. -/
theorem overshoot_bounded (enforceScopes : Bool) (subject : String) (budget : Nat)
    (hbudget : 0 < budget) (events : List Event)
    (hlimit : ∀ e ∈ events, e.Budgeted subject budget)
    (hcareful : Along (step enforceScopes) (fun w e => e.Careful subject budget w) new events)
    (reached : List Event) (hreached : reached <+: events) :
    (reached.foldl (step enforceScopes) new).charged subject <
      budget + (reached.foldl (step enforceScopes) new).largest subject := by
  refine ((hcareful.and_of_forall hlimit).invariant (I := Reserve subject budget) ?_
    (reserve_new hbudget) hreached).covered.spent_lt
  rintro w (⟨principal, scope, model, now, prompt, completion⟩ | ⟨i, now⟩ | i) h ⟨hlim, hcar⟩
  · exact h.authorize hbudget _ _ _ _ _ _ hlim hcar
  · exact h.charge i now hcar
  · exact h.abandon i

/-- A request of the key with a budget of 10 tokens. -/
def ask (tokens : UInt32) : Event :=
  .authorize (some (virtualKey ["budget:10"])) "chat" "m" 0 tokens 0

theorem ask_budgeted (tokens : UInt32) : (ask tokens).Budgeted "apikey:a" 10 :=
  fun _ => by decide +kernel

theorem charge_budgeted (i now : Nat) : (Event.charge i now).Budgeted "apikey:a" 10 :=
  trivial

theorem charge_careful {w : Billing} (h : w.charged "apikey:a" < 2 ^ 63) (i now : Nat) :
    (Event.charge i now).Careful "apikey:a" 10 w := by
  intro r _ _
  have hprompt := r.prompt.toNat_lt
  have hcompletion := r.completion.toNat_lt
  unfold Request.tokens
  omega

/-- One request after the other: the second overshoots by less than its size. -/
theorem overshoot_bounded_sequential :
    Along (step false) (fun w e => e.Careful "apikey:a" 10 w) new
        [ask 6, .charge 0 0, ask 9, .charge 0 0] ∧
      ([ask 6, .charge 0 0, ask 9, .charge 0 0].foldl (step false) new).charged "apikey:a" <
        10 + ([ask 6, .charge 0 0, ask 9, .charge 0 0].foldl (step false) new).largest
          "apikey:a" := by
  have hcareful : Along (step false) (fun w e => e.Careful "apikey:a" 10 w) new
      [ask 6, .charge 0 0, ask 9, .charge 0 0] := by
    refine ⟨fun _ _ => ?_, charge_careful ?_ 0 0, fun _ _ => ?_, charge_careful ?_ 0 0, trivial⟩
    · decide
    · decide +kernel
    · decide +kernel
    · decide +kernel
  refine ⟨hcareful, overshoot_bounded false "apikey:a" 10 (by decide) _ ?_ hcareful _
    (List.prefix_refl _)⟩
  simp [ask_budgeted, charge_budgeted]

/-- Two requests in flight together each pass the check. -/
theorem concurrent_requests_overshoot :
    ¬ ∀ (enforceScopes : Bool) (subject : String) (budget : Nat) (events : List Event),
      (∀ e ∈ events, e.Budgeted subject budget) →
      (events.foldl (step enforceScopes) new).charged subject <
        budget + (events.foldl (step enforceScopes) new).largest subject := by
  intro hall
  have hlt := hall false "apikey:a" 10 [ask 10, ask 10, .charge 0 0, .charge 0 0]
    (by simp [ask_budgeted, charge_budgeted])
  exact absurd hlt (by decide +kernel)

end Billing

end Cognitora.Router

/-
  Who a caller is: API keys (cgn-auth `src/api_key.rs`, `check`) and OIDC tokens
  (`src/oidc.rs`, `verify`).

  An API key is known by the start of its hash behind `apikey:`, an OIDC token by its `sub`
  claim as it stands, and the tenant of either is its first `tenant:` scope, else the subject.
  `identities_separate_iff`: two callers with different credentials have different subjects,
  tenants that are equal by a common `tenant:` scope only, and tenants that are not empty,
  exactly if no `sub` spells the subject of the other's API key, no `tenant:` scope names the
  subject of the other who has none, and neither the first `tenant:` scope nor, without one,
  the `sub` is empty.

  Signatures and the checks on a token's claims are the parameter `Jwt`, keys fetched from the
  issuer are inputs. SHA-256 is the parameter `hash`.
-/
import Cognitora.Auth.KeyFile
import Cognitora.Auth.Principal
import Cognitora.Core.Json

namespace Cognitora.Auth

open Cognitora.Core Cognitora.Lib

/-! ## API keys -/

/-- The hex digits of the first 8 bytes. -/
def hexShort (d : Digest) : String :=
  String.ofList (encodeHex (d.toList.take 8))

section

variable (hash : List UInt8 → Digest)

/-- The subject of an API key. -/
def keySubject (key : Text) : String :=
  "apikey:" ++ hexShort (hash (utf8 key))

/-- `ApiKeyStore::check`. -/
def check (store : Store) (presented : Text) : Option Principal :=
  let digest := hash (utf8 presented)
  match store.lookup digest with
  | none => none
  | some scopes => some { subject := "apikey:" ++ hexShort digest, scopes, kind := .apiKey }

end

/-! ## OIDC tokens -/

inductive Algorithm where
  | rs256
  | rs384
  | rs512
  | es256
  | es384

/-- A key of the issuer. -/
structure JwkEntry (K : Type) where
  kid : String
  alg : Algorithm
  key : K

/-- The keys at hand and when they were refreshed last. -/
structure Jwks (K : Type) where
  keys : List (JwkEntry K)
  refreshed : Nat

structure Claims where
  sub : String
  scope : Option String
  extra : List (String × Json)

/-- What a token is checked against besides its signature. -/
structure Validation where
  alg : Algorithm
  issuer : String
  audience : Option String

/-- `decode_header` (the key id) and `decode` of the JWT library, with the texts of their errors. -/
structure Jwt (K : Type) where
  header : String → Except String (Option String)
  claims : String → K → Validation → Except String Claims

structure OidcVerifier where
  issuer : String
  audience : Option String
  groupToScope : Option (List (String × String))
  groupsClaim : String

/-- Minimum gap in seconds between refreshes for unknown key ids. -/
def kidMissCooldown : Nat := 30

def splitWhitespace (s : String) : List String :=
  (words isWhitespace s.toList).map String.ofList

/-- The group names of a claim: a JSON array or a text with spaces. -/
def extractGroups (extra : List (String × Json)) (claim : String) : List String :=
  match extra.lookup claim with
  | some (.arr items) => items.filterMap Json.asStr
  | some (.str s) => splitWhitespace s
  | _ => []

namespace OidcVerifier

variable {K : Type}

/-- The scopes of a token: its `scope` claim, then those of its groups. -/
def scopes (v : OidcVerifier) (claims : Claims) : List String :=
  let own := claims.scope.elim [] splitWhitespace
  match v.groupToScope with
  | none => own
  | some mapping =>
    let groups := extractGroups claims.extra v.groupsClaim
    mapping.foldl
      (fun scopes gs =>
        if groups.contains gs.1 && !scopes.contains gs.2 then scopes ++ [gs.2] else scopes) own

/-- The principal of a verified token. -/
def principal (v : OidcVerifier) (claims : Claims) : Principal where
  subject := claims.sub
  scopes := v.scopes claims
  kind := .oidc

/-- The claims of a token under the key at hand for its key id. -/
def decodeToken (v : OidcVerifier) (jwt : Jwt K) (jwks : Jwks K) (kid token : String) :
    Except Error Claims :=
  match jwks.keys.find? (·.kid == kid) with
  | none => .error (.invalidArgument ("oidc: kid " ++ kid ++ " not in jwks"))
  | some entry =>
    match jwt.claims token entry.key ⟨entry.alg, v.issuer, v.audience⟩ with
    | .error e => .error (.invalidArgument ("oidc verify: " ++ e))
    | .ok claims => .ok claims

/-- The keys before a token is looked at: refreshed if there are none or after an hour. -/
def hourly (jwks : Jwks K) (now : Nat) (fetched : Except Error (List (JwkEntry K))) :
    Except Error (Jwks K) :=
  if jwks.keys.isEmpty || 3600 < now - jwks.refreshed then
    fetched.map fun keys => { keys, refreshed := now }
  else .ok jwks

/-- The keys once the key id is known: an unknown one refreshes them, at most once per cooldown. -/
def onMiss (jwks : Jwks K) (now : Nat) (kid : String)
    (fetched : Except Error (List (JwkEntry K))) : Except Error (Jwks K) :=
  if !jwks.keys.any (·.kid == kid) && !(now - jwks.refreshed < kidMissCooldown) then
    fetched.map fun keys => { keys, refreshed := now }
  else .ok jwks

/-- `OidcVerifier::verify` up to the decoded claims; `first` and `second` are what the two
    refreshes fetch. -/
def claimsOf (v : OidcVerifier) (jwt : Jwt K) (jwks : Jwks K) (now : Nat)
    (first second : Except Error (List (JwkEntry K))) (token : String) : Except Error Claims :=
  match hourly jwks now first with
  | .error e => .error e
  | .ok jwks =>
    match jwt.header token with
    | .error e => .error (.invalidArgument ("oidc header: " ++ e))
    | .ok none => .error (.invalidArgument "oidc: no kid")
    | .ok (some kid) =>
      match onMiss jwks now kid second with
      | .error e => .error e
      | .ok jwks => v.decodeToken jwt jwks kid token

def verify (v : OidcVerifier) (jwt : Jwt K) (jwks : Jwks K) (now : Nat)
    (first second : Except Error (List (JwkEntry K))) (token : String) : Except Error Principal :=
  (v.claimsOf jwt jwks now first second token).map v.principal

end OidcVerifier

/-! ## Authenticated callers -/

/-- What tells callers apart: the API key presented, or the `sub` claim of the token. -/
inductive Credential where
  | apiKey (key : Text)
  | oidc (sub : String)

/-- The principals of a credential, whatever the key file, the issuer and the configuration. -/
inductive Authenticated (hash : List UInt8 → Digest) : Credential → Principal → Prop where
  | apiKey {store : Store} {key : Text} {p : Principal} (h : check hash store key = some p) :
    Authenticated hash (.apiKey key) p
  | oidc {K : Type} {v : OidcVerifier} {jwt : Jwt K} {jwks : Jwks K} {now : Nat}
    {first second : Except Error (List (JwkEntry K))} {token : String} {claims : Claims}
    {p : Principal} (hclaims : v.claimsOf jwt jwks now first second token = .ok claims)
    (h : v.verify jwt jwks now first second token = .ok p) :
    Authenticated hash (.oidc claims.sub) p

/-- The first `tenant:` scope. -/
def Principal.tenantScope (p : Principal) : Option String :=
  p.scopes.findSome? (strip "tenant:")

/-- The two callers are kept apart. -/
structure Separate (p q : Principal) : Prop where
  subjects : p.subject ≠ q.subject
  tenants : p.tenant = q.tenant →
    ∃ s ∈ p.scopes, s ∈ q.scopes ∧ (strip "tenant:" s).isSome = true
  named : p.tenant ≠ "" ∧ q.tenant ≠ ""

/-- An OIDC `sub` spells the subject of an API key. -/
def Spells (hash : List UInt8 → Digest) (c d : Credential) : Prop :=
  ∃ key, c = .apiKey key ∧ d = .oidc (keySubject hash key)

/-- The first `tenant:` scope of `p` names the subject of `q`, who has no such scope. -/
def Names (p q : Principal) : Prop :=
  p.tenantScope = some q.subject ∧ q.tenantScope = none

/-- The tenant of the credential is empty. -/
def Nameless (c : Credential) (p : Principal) : Prop :=
  p.tenantScope = some "" ∨ p.tenantScope = none ∧ c = .oidc ""

/-! ## Texts -/

theorem strip_eq_some {start s t : String} (h : strip start s = some t) : s = start ++ t := by
  unfold strip at h
  split at h
  · next hprefix =>
    obtain ⟨rest, hrest⟩ := List.isPrefixOf_iff_prefix.mp hprefix
    cases h
    rw [← String.toList_inj, String.toList_append, String.toList_ofList, ← hrest,
      ← String.length_toList, List.drop_left]
  · cases h

theorem hexShort_inj {d e : Digest} (h : hexShort d = hexShort e) :
    d.toList.take 8 = e.toList.take 8 := by
  have hlist := congrArg String.toList h
  rw [hexShort, hexShort, String.toList_ofList, String.toList_ofList] at hlist
  exact encodeHex_inj hlist

theorem keySubject_inj {hash : List UInt8 → Digest} {k l : Text}
    (h : keySubject hash k = keySubject hash l) :
    (hash (utf8 k)).toList.take 8 = (hash (utf8 l)).toList.take 8 := by
  refine hexShort_inj ?_
  have hlist := congrArg String.toList h
  rw [keySubject, keySubject, String.toList_append, String.toList_append] at hlist
  exact String.toList_inj.mp (List.append_cancel_left hlist)

theorem keySubject_ne_empty (hash : List UInt8 → Digest) (key : Text) :
    keySubject hash key ≠ "" := by
  intro h
  have hlist := congrArg String.toList h
  rw [keySubject, String.toList_append] at hlist
  cases hlist

/-! ## Separation -/

section

variable {hash : List UInt8 → Digest} {c d : Credential} {p q : Principal}

/-- The subject a credential stands for. -/
def Credential.subject (hash : List UInt8 → Digest) : Credential → String
  | .apiKey key => keySubject hash key
  | .oidc sub => sub

theorem Authenticated.spec (h : Authenticated hash c p) :
    p.subject = c.subject hash ∧ p.kind ≠ .anonymous := by
  cases h with
  | apiKey h =>
    unfold check at h
    dsimp only at h
    split at h
    · cases h
    · cases h
      exact ⟨rfl, fun hkind => PrincipalKind.noConfusion hkind⟩
  | oidc hclaims h =>
    rw [OidcVerifier.verify, hclaims] at h
    cases h
    exact ⟨rfl, fun hkind => PrincipalKind.noConfusion hkind⟩

theorem Authenticated.tenant_eq (h : Authenticated hash c p) :
    p.tenant = p.tenantScope.getD p.subject := by
  unfold Principal.tenant
  rw [if_neg h.spec.2]
  rfl

theorem exists_of_tenantScope {t : String} (h : p.tenantScope = some t) :
    "tenant:" ++ t ∈ p.scopes ∧ (strip "tenant:" ("tenant:" ++ t)).isSome = true := by
  obtain ⟨s, hs, hstrip⟩ := List.exists_of_findSome?_eq_some h
  have heq := strip_eq_some hstrip
  rw [← heq, hstrip]
  exact ⟨hs, rfl⟩

theorem tenantScope_ne_none {s : String} (hs : s ∈ p.scopes)
    (hstrip : (strip "tenant:" s).isSome = true) : p.tenantScope ≠ none := by
  intro hnone
  rw [List.findSome?_eq_none_iff.mp hnone s hs] at hstrip
  cases hstrip

theorem subjects_ne_iff (hc : Authenticated hash c p) (hd : Authenticated hash d q)
    (hne : c ≠ d)
    (hshort : ∀ k l, c = .apiKey k → d = .apiKey l →
      (hash (utf8 k)).toList.take 8 ≠ (hash (utf8 l)).toList.take 8) :
    p.subject ≠ q.subject ↔ ¬ Spells hash c d ∧ ¬ Spells hash d c := by
  rw [hc.spec.1, hd.spec.1]
  unfold Spells
  cases c with
  | apiKey k =>
    cases d with
    | apiKey l =>
      refine iff_of_true (fun h => hshort k l rfl rfl (keySubject_inj h)) ⟨?_, ?_⟩
      · rintro ⟨_, _, h⟩
        cases h
      · rintro ⟨_, _, h⟩
        cases h
    | oidc sub => simp [Credential.subject, eq_comm]
  | oidc sub =>
    cases d with
    | apiKey l => simp [Credential.subject, eq_comm]
    | oidc sub' =>
      refine iff_of_true (fun h => hne (congrArg Credential.oidc h)) ⟨?_, ?_⟩
      · rintro ⟨_, h, _⟩
        cases h
      · rintro ⟨_, h, _⟩
        cases h

theorem tenant_ne_empty_iff (hc : Authenticated hash c p) : p.tenant ≠ "" ↔ ¬ Nameless c p := by
  rw [hc.tenant_eq]
  unfold Nameless
  cases hscope : p.tenantScope with
  | some t => simp
  | none =>
    rw [Option.getD_none, hc.spec.1]
    cases c with
    | apiKey k => simp [Credential.subject, keySubject_ne_empty]
    | oidc sub => simp [Credential.subject]

/-- Equal tenants come from a common scope exactly if nobody's scope names the other's subject. -/
theorem tenants_iff (hc : Authenticated hash c p) (hd : Authenticated hash d q)
    (hsubject : p.subject ≠ q.subject) :
    (p.tenant = q.tenant → ∃ s ∈ p.scopes, s ∈ q.scopes ∧ (strip "tenant:" s).isSome = true) ↔
      ¬ Names p q ∧ ¬ Names q p := by
  rw [hc.tenant_eq, hd.tenant_eq]
  unfold Names
  cases hp : p.tenantScope with
  | some t =>
    cases hq : q.tenantScope with
    | some u =>
      refine iff_of_true ?_ (by simp)
      rintro rfl
      exact ⟨_, (exists_of_tenantScope hp).1, (exists_of_tenantScope hq).1,
        (exists_of_tenantScope hp).2⟩
    | none =>
      simp only [Option.getD_some, Option.getD_none, Option.some.injEq, and_true, reduceCtorEq,
        and_false, not_false_eq_true]
      constructor
      · intro h heq
        obtain ⟨s, _, hs, hstrip⟩ := h heq
        exact tenantScope_ne_none hs hstrip hq
      · intro h heq
        exact absurd heq h
  | none =>
    cases hq : q.tenantScope with
    | some u =>
      simp only [Option.getD_some, Option.getD_none, Option.some.injEq, and_true, reduceCtorEq,
        false_and, not_false_eq_true, true_and]
      constructor
      · intro h heq
        obtain ⟨s, hs, _, hstrip⟩ := h heq.symm
        exact tenantScope_ne_none hs hstrip hp
      · intro h heq
        exact absurd heq.symm h
    | none => exact iff_of_true (fun h => absurd h hsubject) (by simp)

/-- When two callers with different credentials are kept apart. -/
theorem identities_separate_iff (hc : Authenticated hash c p) (hd : Authenticated hash d q)
    (hne : c ≠ d)
    (hshort : ∀ k l, c = .apiKey k → d = .apiKey l →
      (hash (utf8 k)).toList.take 8 ≠ (hash (utf8 l)).toList.take 8) :
    Separate p q ↔
      (¬ Spells hash c d ∧ ¬ Spells hash d c) ∧ (¬ Names p q ∧ ¬ Names q p) ∧
        ¬ Nameless c p ∧ ¬ Nameless d q := by
  rw [← subjects_ne_iff hc hd hne hshort, ← tenant_ne_empty_iff hc, ← tenant_ne_empty_iff hd]
  constructor
  · rintro ⟨hsubject, htenants, hnamed⟩
    exact ⟨hsubject, (tenants_iff hc hd hsubject).mp htenants, hnamed⟩
  · rintro ⟨hsubject, htenants, hnamed⟩
    exact ⟨hsubject, (tenants_iff hc hd hsubject).mpr htenants, hnamed⟩

end

/-! ## A key and a token -/

/-- A key file with the first sample key. -/
def keyStore : Store :=
  (∅ : Store).insert Command.digestA ["chat"]

/-- The point of an ES256 key. -/
def issuerKey : Nat × Nat :=
  (0x36b6ad931d4148db2f17ed9a795984797728bc2983ec83d8e6ba6e767063c5ab,
   0xa201999da1d87ea3c8e3af9b201d52e58046a8258f950c85783d6d230e0cd800)

/-- Signed with that key: `iss` is `https://idp`, `sub` is `alice`, `scope` is `chat`, `exp` is
    4102444800. -/
def aliceToken : String :=
  "eyJhbGciOiJFUzI1NiIsImtpZCI6ImsifQ.eyJpc3MiOiJodHRwczovL2lkcCIsInN1YiI6ImFsaWNlIiwic2Nvc" ++
    "GUiOiJjaGF0IiwiZXhwIjo0MTAyNDQ0ODAwfQ.HBZlPrlLjdtJnpKuVQBR6CsmSzHjI3cA_zL2UvU1xn51dzCWDU" ++
    "qghDXMqFBr2_X6oSQ1LWDe7iuyB0m3rtt_lQ"

/-- The same with the `sub` `apikey:81f08e35078a7144`. -/
def keyLikeToken : String :=
  "eyJhbGciOiJFUzI1NiIsImtpZCI6ImsifQ.eyJpc3MiOiJodHRwczovL2lkcCIsInN1YiI6ImFwaWtleTo4MWYwO" ++
    "GUzNTA3OGE3MTQ0Iiwic2NvcGUiOiJjaGF0IiwiZXhwIjo0MTAyNDQ0ODAwfQ.L2EnDV9065flj7abD81_7unPhG" ++
    "OGIFWW3fvqWtbnuGg1u8p8Zem3c0W_qLwds_Wi2j0KFU3l48vuwSo8CNU0vQ"

/-- The subjects of the tokens issued. -/
def issued : List (String × String) :=
  [(aliceToken, "alice"), (keyLikeToken, "apikey:81f08e35078a7144")]

def sampleClaims (sub : String) : Claims where
  sub := sub
  scope := some "chat"
  extra := [("exp", .uint 4102444800), ("iss", .str "https://idp")]

/-- The JWT library on the tokens issued. -/
def sampleJwt : Jwt (Nat × Nat) where
  header token := if (issued.lookup token).isSome then .ok (some "k") else .error "InvalidToken"
  claims token key _ :=
    match issued.lookup token with
    | none => .error "InvalidToken"
    | some sub =>
      if key = issuerKey then .ok (sampleClaims sub) else .error "InvalidSignature"

def sampleVerifier : OidcVerifier where
  issuer := "https://idp"
  audience := none
  groupToScope := none
  groupsClaim := "groups"

theorem authenticated_keyA :
    Authenticated Command.sha256Sample (.apiKey Command.secretA)
      ⟨"apikey:81f08e35078a7144", ["chat"], .apiKey⟩ := by
  have hlookup : keyStore.lookup (Command.sha256Sample (utf8 Command.secretA)) = some ["chat"] := by
    decide +kernel
  have hsubject : "apikey:" ++ hexShort (Command.sha256Sample (utf8 Command.secretA)) =
      "apikey:81f08e35078a7144" := by
    decide +kernel
  have h : check Command.sha256Sample keyStore Command.secretA =
      some ⟨"apikey:81f08e35078a7144", ["chat"], .apiKey⟩ := by
    unfold check
    dsimp only
    rw [hlookup, hsubject]
  exact .apiKey h

theorem authenticated_token {token sub : String} (h : issued.lookup token = some sub) :
    Authenticated Command.sha256Sample (.oidc sub) ⟨sub, ["chat"], .oidc⟩ := by
  have hclaims : sampleVerifier.claimsOf sampleJwt ⟨[⟨"k", .es256, issuerKey⟩], 0⟩ 0 (.ok [])
      (.ok []) token = .ok (sampleClaims sub) := by
    simp [OidcVerifier.claimsOf, OidcVerifier.hourly, OidcVerifier.onMiss,
      OidcVerifier.decodeToken, sampleJwt, h]
  have hscopes : splitWhitespace "chat" = ["chat"] := by decide +kernel
  have hverify : sampleVerifier.verify sampleJwt ⟨[⟨"k", .es256, issuerKey⟩], 0⟩ 0 (.ok [])
      (.ok []) token = .ok ⟨sub, ["chat"], .oidc⟩ := by
    rw [OidcVerifier.verify, hclaims]
    simp [Except.map, OidcVerifier.principal, OidcVerifier.scopes, sampleVerifier, sampleClaims,
      hscopes]
  exact .oidc hclaims hverify

theorem authenticated_alice :
    Authenticated Command.sha256Sample (.oidc "alice") ⟨"alice", ["chat"], .oidc⟩ :=
  authenticated_token (show issued.lookup aliceToken = _ by decide +kernel)

theorem authenticated_keyLike :
    Authenticated Command.sha256Sample (.oidc "apikey:81f08e35078a7144")
      ⟨"apikey:81f08e35078a7144", ["chat"], .oidc⟩ :=
  authenticated_token (show issued.lookup keyLikeToken = _ by decide +kernel)

theorem identities_separate_alice :
    Authenticated Command.sha256Sample (.apiKey Command.secretA)
        ⟨"apikey:81f08e35078a7144", ["chat"], .apiKey⟩ ∧
      Authenticated Command.sha256Sample (.oidc "alice") ⟨"alice", ["chat"], .oidc⟩ ∧
      Separate ⟨"apikey:81f08e35078a7144", ["chat"], .apiKey⟩ ⟨"alice", ["chat"], .oidc⟩ := by
  refine ⟨authenticated_keyA, authenticated_alice, ?_⟩
  have hne : Credential.apiKey Command.secretA ≠ .oidc "alice" :=
    fun h => Credential.noConfusion h
  refine (identities_separate_iff authenticated_keyA authenticated_alice hne
    fun k l _ h => Credential.noConfusion h).mpr ⟨⟨?_, ?_⟩, ⟨?_, ?_⟩, ?_, ?_⟩
  · rintro ⟨key, hkey, hsub⟩
    cases hkey
    exact absurd (Credential.oidc.inj hsub) (by decide +kernel)
  · rintro ⟨key, hkey, _⟩
    cases hkey
  · rintro ⟨h, _⟩
    exact absurd h (by decide +kernel)
  · rintro ⟨h, _⟩
    exact absurd h (by decide +kernel)
  · rintro (h | ⟨_, h⟩)
    · exact absurd h (by decide +kernel)
    · cases h
  · rintro (h | ⟨_, h⟩)
    · exact absurd h (by decide +kernel)
    · exact absurd (Credential.oidc.inj h) (by decide)

/-- A token whose `sub` spells an API key is charged, limited and cached as that key. -/
theorem sub_spells_apiKey :
    ¬ ∀ (hash : List UInt8 → Digest) (c d : Credential) (p q : Principal),
      Authenticated hash c p → Authenticated hash d q → c ≠ d →
      (∀ k l, c = .apiKey k → d = .apiKey l →
        (hash (utf8 k)).toList.take 8 ≠ (hash (utf8 l)).toList.take 8) → Separate p q := by
  intro hall
  refine (hall _ _ _ _ _ authenticated_keyA authenticated_keyLike
    (fun h => Credential.noConfusion h) fun k l _ h => Credential.noConfusion h).subjects rfl

end Cognitora.Auth

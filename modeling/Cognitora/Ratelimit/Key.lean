/-
  The key a request is rate limited under (cgn-ratelimit `src/lib.rs`).

  The key of an authenticated request is its subject. Without one it is the client's address:
  the socket peer, or, behind trusted proxies, the hop of `X-Forwarded-For` at which the walk from
  the right ends. Of several lines only the first is read, which is the client's own; and a line
  that is not visible ASCII counts as absent.

  `key_of_last_hops`: a peer that is not trusted has one key, whatever the headers. For a trusted
  peer the hops of all lines from the right-most one that is untrusted or unparsable to the end
  give the key exactly if `FirstLineDecides`, which every request with one line of visible ASCII
  meets; two requests with the same last hops, one of them such, have one key exactly if the other
  is such too.

  A `str` is the list of its UTF-8 bytes. How `std` reads and prints an address is a parameter.
  The limiter's buckets are not modelled.
-/
import Cognitora.Auth.Principal
import Cognitora.Lib.Lines
import Cognitora.Lib.Text

namespace Cognitora.Ratelimit

open Cognitora.Auth Cognitora.Lib

inductive IpAddr where
  | v4 (bits : BitVec 32)
  | v6 (bits : BitVec 128)
  deriving DecidableEq

/-- `str::parse::<IpAddr>` and the `Display` of an address. -/
structure AddrText where
  parse : Bytes → Option IpAddr
  /-- An empty text is no address. -/
  parse_nil : parse [] = none
  display : IpAddr → String

/-! ## Trusted networks -/

/-- An IP network such as `10.0.0.0/8`, or one bare address. -/
structure Cidr where
  net : IpAddr
  bits : Nat

/-- `str::parse::<u32>`. -/
def parseU32 (s : Bytes) : Option Nat :=
  let digits := match s with
    | 43 :: rest => rest
    | _ => s
  let value := digits.foldl (fun v b => 10 * v + (b.toNat - 48)) 0
  if digits.isEmpty || !digits.all (fun b => 48 ≤ b && b ≤ 57) || 4294967296 ≤ value then none
  else some value

namespace Cidr

/-- `max` of `Cidr::parse`, the width of the address. -/
def width : IpAddr → Nat
  | .v4 _ => 32
  | .v6 _ => 128

def parse (text : AddrText) (s : Bytes) : Option Cidr := do
  let (ip, bits) ← match s.idxOf? 47 with
    | some slash => do
      let ip ← text.parse (s.take slash)
      let bits ← parseU32 (s.drop (slash + 1))
      pure (ip, bits)
    | none => do
      let ip ← text.parse s
      pure (ip, width ip)
  if bits ≤ width ip then some { net := ip, bits } else none

def shifted (bits v width : Nat) : Nat :=
  if bits = 0 then 0 else v >>> (width - bits)

def contains (c : Cidr) (ip : IpAddr) : Bool :=
  match c.net, ip with
  | .v4 a, .v4 b => shifted c.bits a.toNat 32 == shifted c.bits b.toNat 32
  | .v6 a, .v6 b => shifted c.bits a.toNat 128 == shifted c.bits b.toNat 128
  | _, _ => false

end Cidr

/-! ## Keys -/

structure RateLimit where
  trusted : List Cidr

/-- Entries that do not parse are ignored. -/
def RateLimit.withTrustedProxies (text : AddrText) (proxies : List String) : RateLimit where
  trusted := proxies.filterMap fun p => Cidr.parse text (utf8 p.toList)

/-- What a key is made from. -/
structure Request where
  /-- Set by the auth middleware. -/
  principal : Option Principal
  /-- The socket peer. -/
  peer : Option IpAddr
  /-- The header lines in order, with lower-case names. -/
  headers : List (String × Bytes)

/-- `HeaderValue::to_str`. -/
def toStr (value : Bytes) : Option Bytes :=
  if value.all fun b => (32 ≤ b && b < 127) || b == 9 then some value else none

section

variable (text : AddrText)

def parseHop (hop : Bytes) : Option IpAddr :=
  text.parse (trim (isAsciiSpace ·.toNat) hop)

/-- The loop of `client_ip` over the hops from the right. -/
def walk (trusted : IpAddr → Bool) : IpAddr → List Bytes → IpAddr
  | client, [] => client
  | client, hop :: hops =>
    match parseHop text hop with
    | none => client
    | some ip => if trusted ip then walk trusted ip hops else ip

/-- Resolve the client address. -/
def clientIp (peer : Option IpAddr) (xff : Option Bytes) (trusted : IpAddr → Bool) :
    Option IpAddr :=
  match peer with
  | none => none
  | some peer =>
    if !trusted peer then some peer
    else some (walk text trusted peer ((xff.getD []).splitOn 44).reverse)

namespace RateLimit

def isTrusted (rl : RateLimit) (ip : IpAddr) : Bool :=
  rl.trusted.any (·.contains ip)

/-- The subject of an authenticated request. -/
def subject (req : Request) : Option String :=
  match req.principal with
  | none => none
  | some p => if p.kind ≠ .anonymous then some p.subject else none

def keyFor (rl : RateLimit) (req : Request) : String :=
  match subject req with
  | some s => "sub:" ++ s
  | none =>
    let xff := (req.headers.lookup "x-forwarded-for").bind toStr
    match clientIp text req.peer xff rl.isTrusted with
    | some ip => "ip:" ++ text.display ip
    | none => "anonymous"

end RateLimit

end

/-! ## What the key depends on -/

namespace Request

/-- The `X-Forwarded-For` lines, in order. -/
def forwarded (req : Request) : List Bytes :=
  (req.headers.filter (·.1 == "x-forwarded-for")).map Prod.snd

/-- The hops of all lines, joined. -/
def hops (req : Request) : List Bytes :=
  req.forwarded.flatMap (·.splitOn 44)

end Request

section

variable (text : AddrText)

/-- Of hops from the right, those up to the first that is untrusted or unparsable. -/
def decisive (trusted : IpAddr → Bool) : List Bytes → List Bytes
  | [] => []
  | hop :: hops =>
    if (parseHop text hop).any trusted then hop :: decisive trusted hops else [hop]

/-- The hops from the right-most one that is untrusted or unparsable to the end. -/
def lastOf (trusted : IpAddr → Bool) (hops : List Bytes) : List Bytes :=
  (decisive text trusted hops.reverse).reverse

/-- The address that last hops stand for: the left-most of them that is one, or the peer. -/
def addressOf (peer : IpAddr) (last : List Bytes) : IpAddr :=
  (last.findSome? (parseHop text)).getD peer

namespace RateLimit

def lastHops (rl : RateLimit) (req : Request) : List Bytes :=
  lastOf text rl.isTrusted req.hops

/-- The key that last hops stand for. -/
def keyOfHops (peer : IpAddr) (last : List Bytes) : String :=
  "ip:" ++ text.display (addressOf text peer last)

/-- The hops of the lines after the first make no difference. If all of them are trusted, the walk
    goes on into the first line, which has to begin with an address; if not, the first line has
    to stand for the address they stand for. A first line that is not visible ASCII is not
    read. -/
def FirstLineDecides (rl : RateLimit) (peer : IpAddr) (req : Request) : Prop :=
  match req.forwarded with
  | [] => True
  | line :: rest =>
    let first := line.splitOn 44
    let later := rest.flatMap (·.splitOn 44)
    let shown := fun hops => text.display (addressOf text peer (lastOf text rl.isTrusted hops))
    if (toStr line).isNone then shown (first ++ later) = text.display peer
    else if later.all fun hop => (parseHop text hop).any rl.isTrusted then
      (first.getLast?.bind (parseHop text)).isSome ∨ shown later = text.display peer
    else shown first = shown later

instance (rl : RateLimit) (peer : IpAddr) (req : Request) :
    Decidable (rl.FirstLineDecides text peer req) := by
  unfold FirstLineDecides
  split
  · exact instDecidableTrue
  · dsimp only
    infer_instance

end RateLimit

variable {text}

/-! ### Walks -/

section

variable {trusted : IpAddr → Bool}

/-- The walk ends at the address that the last hops stand for. -/
theorem walk_eq_addressOf (client : IpAddr) (hops : List Bytes) :
    walk text trusted client hops.reverse = addressOf text client (lastOf text trusted hops) := by
  suffices h : ∀ (hops : List Bytes) (client : IpAddr), walk text trusted client hops =
      addressOf text client (decisive text trusted hops).reverse from h _ _
  intro hops
  induction hops with
  | nil => exact fun _ => rfl
  | cons hop hops ih =>
    intro client
    unfold walk decisive
    cases hparse : parseHop text hop with
    | none => simp [addressOf, hparse]
    | some ip =>
      cases htrusted : trusted ip with
      | false => simp [addressOf, hparse, htrusted]
      | true =>
        have hrest := ih ip
        simp only [addressOf, Option.any_some, htrusted, if_true, List.reverse_cons,
          List.findSome?_append, List.findSome?_singleton, hparse] at hrest ⊢
        rw [hrest]
        cases List.findSome? (parseHop text) (decisive text trusted hops).reverse <;> rfl

theorem walk_append_of_all {hops : List Bytes}
    (h : ∀ hop ∈ hops, (parseHop text hop).any trusted = true) (client : IpAddr)
    (more : List Bytes) :
    walk text trusted client (hops ++ more) =
      walk text trusted (walk text trusted client hops) more := by
  induction hops generalizing client with
  | nil => rfl
  | cons hop hops ih =>
    obtain ⟨ip, hparse, htrusted⟩ := (Option.any_eq_true _ _).mp (h hop List.mem_cons_self)
    rw [List.cons_append, walk, walk, hparse]
    simp only [htrusted, if_true]
    exact ih (fun hop hhop => h hop (List.mem_cons_of_mem _ hhop)) ip

/-- The walk does not get past a hop that is untrusted or unparsable. -/
theorem walk_append_of_not_all {hops : List Bytes}
    (h : ¬ ∀ hop ∈ hops, (parseHop text hop).any trusted = true) (client : IpAddr)
    (more : List Bytes) :
    walk text trusted client (hops ++ more) = walk text trusted client hops := by
  induction hops generalizing client with
  | nil => exact absurd (fun _ hhop => absurd hhop List.not_mem_nil) h
  | cons hop hops ih =>
    rw [List.cons_append, walk, walk]
    cases hparse : parseHop text hop with
    | none => rfl
    | some ip =>
      cases htrusted : trusted ip with
      | false => simp [htrusted]
      | true =>
        simp only [htrusted, if_true]
        refine ih (fun hall => h ?_) ip
        rintro x hx
        obtain rfl | hx := List.mem_cons.mp hx
        · rw [hparse]
          exact htrusted
        · exact hall x hx

/-- Where a walk starts from matters only if its first hop is no address. -/
theorem walk_start {hops : List Bytes} (hne : hops ≠ []) (client client' : IpAddr) :
    walk text trusted client hops.reverse =
      if (hops.getLast?.bind (parseHop text)).isSome then walk text trusted client' hops.reverse
      else client := by
  obtain ⟨init, last, rfl⟩ := List.eq_nil_or_concat hops |>.resolve_left hne
  rw [List.concat_eq_append, List.reverse_append, List.getLast?_append]
  simp only [List.reverse_singleton, List.singleton_append, walk, List.getLast?_singleton,
    Option.some_or, Option.bind_some]
  cases parseHop text last <;> rfl

end

theorem lookup_eq_head? (headers : List (String × Bytes)) (name : String) :
    headers.lookup name = ((headers.filter (·.1 == name)).map Prod.snd).head? := by
  induction headers with
  | nil => rfl
  | cons h headers ih =>
    rw [List.lookup_cons, List.filter_cons]
    cases hname : name == h.1 with
    | true =>
      rw [if_pos (by rw [BEq.comm, hname])]
      rfl
    | false => rw [if_neg (by rw [BEq.comm, hname]; simp), ih]

theorem toStr_eq_some {value : Bytes} (h : (toStr value).isSome) : toStr value = some value := by
  unfold toStr at h ⊢
  split
  · rfl
  · next hbad =>
    rw [if_neg hbad] at h
    cases h

/-- What `key_for` walks over: the first line, if it is readable. Without one the walk is given
    one hop, an empty one, and stops there. -/
theorem keyFor_eq (rl : RateLimit) {peer : IpAddr} {req : Request}
    (hsub : RateLimit.subject req = none) (hpeer : req.peer = some peer) :
    rl.keyFor text req = "ip:" ++ text.display (if !rl.isTrusted peer then peer else
      walk text rl.isTrusted peer
        (((req.forwarded.head?.bind toStr).getD []).splitOn 44).reverse) := by
  unfold RateLimit.keyFor clientIp
  rw [hsub, hpeer]
  dsimp only
  rw [lookup_eq_head?]
  change (match if _ then _ else some (walk text rl.isTrusted peer
    (((req.forwarded.head?.bind toStr).getD []).splitOn 44).reverse) with
      | some ip => _
      | none => _) = _
  cases rl.isTrusted peer with
  | false => rfl
  | true => rfl

theorem walk_blank (trusted : IpAddr → Bool) (client : IpAddr) :
    walk text trusted client (([] : Bytes).splitOn 44).reverse = client := by
  have hstop : parseHop text [] = none := text.parse_nil
  show walk text trusted client [[]] = client
  rw [walk, hstop]

/-- The address the walk over the first line ends at, against that of all hops. -/
theorem shown_eq_iff (rl : RateLimit) (peer : IpAddr) (req : Request) :
    text.display (walk text rl.isTrusted peer
        (((req.forwarded.head?.bind toStr).getD []).splitOn 44).reverse) =
      text.display (addressOf text peer (rl.lastHops text req)) ↔
    rl.FirstLineDecides text peer req := by
  unfold RateLimit.lastHops RateLimit.FirstLineDecides Request.hops
  rw [← walk_eq_addressOf]
  cases req.forwarded with
  | nil =>
    rw [List.head?_nil, Option.bind_none, Option.getD_none, walk_blank]
    exact iff_of_true rfl trivial
  | cons line rest =>
    have hfirst : line.splitOn 44 ≠ [] := List.splitOn_ne_nil 44 line
    dsimp only
    rw [List.head?_cons, Option.bind_some, List.flatMap_cons]
    generalize rest.flatMap (·.splitOn 44) = later
    split
    · next hread =>
      rw [Option.isNone_iff_eq_none.mp hread, Option.getD_none, walk_blank, walk_eq_addressOf]
      exact eq_comm
    · next hread =>
      rw [toStr_eq_some (Option.ne_none_iff_isSome.mp
        fun hnone => hread (Option.isNone_iff_eq_none.mpr hnone)), Option.getD_some,
        List.reverse_append]
      split
      · next hall =>
        have htrusted : ∀ hop ∈ later.reverse, (parseHop text hop).any rl.isTrusted = true :=
          fun hop hhop => List.all_eq_true.mp hall hop (List.mem_reverse.mp hhop)
        rw [walk_append_of_all htrusted, walk_start hfirst (walk text rl.isTrusted peer _) peer,
          walk_start hfirst peer peer, walk_eq_addressOf peer later]
        split
        · next hsome => exact iff_of_true rfl (.inl hsome)
        · next hnone => exact ⟨fun h => .inr h.symm, fun h => (h.resolve_left hnone).symm⟩
      · next hall =>
        rw [walk_append_of_not_all, walk_eq_addressOf, walk_eq_addressOf]
        intro htrusted
        exact hall (List.all_eq_true.mpr fun hop hhop => htrusted hop (List.mem_reverse.mpr hhop))

/-- Requests of one peer that are not authenticated: if the peer is not trusted they have one
    key. If it is, the last hops of a request give its key exactly if `FirstLineDecides`; and a
    request with the last hops of such a one has its key exactly if it is such a one too. -/
theorem key_of_last_hops (text : AddrText) (rl : RateLimit) (peer : IpAddr) (req req' : Request)
    (hsub : RateLimit.subject req = none) (hsub' : RateLimit.subject req' = none)
    (hpeer : req.peer = some peer) (hpeer' : req'.peer = some peer) :
    (rl.isTrusted peer = false → rl.keyFor text req = rl.keyFor text req') ∧
      (rl.isTrusted peer = true →
        (rl.keyFor text req = RateLimit.keyOfHops text peer (rl.lastHops text req) ↔
          rl.FirstLineDecides text peer req) ∧
        (rl.lastHops text req = rl.lastHops text req' → rl.FirstLineDecides text peer req →
          (rl.keyFor text req = rl.keyFor text req' ↔ rl.FirstLineDecides text peer req'))) := by
  have hiff : rl.isTrusted peer = true → ∀ r : Request, RateLimit.subject r = none →
      r.peer = some peer →
        (rl.keyFor text r = RateLimit.keyOfHops text peer (rl.lastHops text r) ↔
          rl.FirstLineDecides text peer r) := by
    intro htrusted r hs hp
    rw [keyFor_eq rl hs hp, htrusted, if_neg (by simp), RateLimit.keyOfHops,
      String.append_right_inj, shown_eq_iff]
  constructor
  · intro huntrusted
    rw [keyFor_eq rl hsub hpeer, keyFor_eq rl hsub' hpeer', huntrusted]
    rfl
  · intro htrusted
    refine ⟨hiff htrusted req hsub hpeer, fun hlast hfirst => ?_⟩
    rw [(hiff htrusted req hsub hpeer).mpr hfirst, hlast,
      ← hiff htrusted req' hsub' hpeer']
    exact eq_comm

end

/-! ## Dotted addresses -/

/-- A number of a dotted address: up to three digits, no leading zero. -/
def parseOctet (s : Bytes) : Option Nat :=
  if s.isEmpty || 3 < s.length || (1 < s.length && s.head? == some 48) ||
      !s.all (fun b => 48 ≤ b && b ≤ 57) then none
  else (parseU32 s).filter (· < 256)

def parseDotted (s : Bytes) : Option IpAddr :=
  match (s.splitOn 46).map parseOctet with
  | [some a, some b, some c, some d] =>
    some (.v4 (BitVec.ofNat 32 (((a * 256 + b) * 256 + c) * 256 + d)))
  | _ => none

def displayDotted : IpAddr → String
  | .v4 bits =>
    let n := bits.toNat
    toString (n / 16777216) ++ "." ++ toString (n / 65536 % 256) ++ "." ++
      toString (n / 256 % 256) ++ "." ++ toString (n % 256)
  | .v6 bits => toString bits.toNat

/-- IPv4 as `std` has it; no IPv6 address parses. -/
def dotted : AddrText where
  parse := parseDotted
  parse_nil := by decide +kernel
  display := displayDotted

/-- An anonymous request from `10.0.0.2` with some `X-Forwarded-For` lines. -/
def proxied (lines : List String) : Request where
  principal := none
  peer := some (.v4 0x0a000002)
  headers := lines.map fun line => ("x-forwarded-for", utf8 line.toList)

/-- Trusts `10.0.0.0/8`. -/
def tenNet : RateLimit :=
  RateLimit.withTrustedProxies dotted ["10.0.0.0/8"]

example :
    tenNet.keyFor dotted (proxied ["6.6.6.6, 198.51.100.7, 10.1.1.1"]) = "ip:198.51.100.7" := by
  decide +kernel

theorem key_of_last_hops_two_clients :
    tenNet.isTrusted (.v4 0x0a000002) = true ∧
      tenNet.keyFor dotted (proxied ["6.6.6.6, 198.51.100.7", "10.1.1.1"]) =
        tenNet.keyFor dotted (proxied ["7.7.7.7, 198.51.100.7,10.1.1.1"]) := by
  have htrusted : tenNet.isTrusted (.v4 0x0a000002) = true := by decide +kernel
  refine ⟨htrusted, ?_⟩
  exact (((key_of_last_hops dotted tenNet (.v4 0x0a000002) _ _ rfl rfl rfl rfl).2 htrusted).2
    (by decide +kernel) (by decide +kernel)).mpr (by decide +kernel)

/-- Behind a proxy that adds a line of its own, the line of the client decides. -/
theorem own_line_chooses_key :
    ¬ ∀ (text : AddrText) (rl : RateLimit) (peer : IpAddr) (req req' : Request),
      RateLimit.subject req = none → RateLimit.subject req' = none →
      req.peer = some peer → req'.peer = some peer →
        (rl.isTrusted peer = false → rl.keyFor text req = rl.keyFor text req') ∧
          (rl.isTrusted peer = true → rl.lastHops text req = rl.lastHops text req' →
            rl.keyFor text req = rl.keyFor text req') := by
  intro h
  have hsame := (h dotted tenNet (.v4 0x0a000002) (proxied ["9.9.9.9", "203.0.113.7"])
    (proxied ["8.8.8.8", "203.0.113.7"]) rfl rfl rfl rfl).2 (by decide +kernel)
    (by decide +kernel)
  exact absurd hsame (by decide +kernel)

end Cognitora.Ratelimit

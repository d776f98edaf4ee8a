/-
  Cached tokens the vLLM connector reports (cgn-kv-connector `connector.py`, `digests.py`,
  `kv_client.py`; cgn-agent `src/kvcached.rs`, `src/engine/openai_http.rs`
  `kv_transfer_params_from_digests`).

  The router sends one digest for each chunk of 32 prompt tokens. The agent attaches them to the
  request, with those its daemon holds, and the connector asks the daemon again and counts.
  It reports one block of tokens, 16 by default, for each offered digest that is resident, wherever
  it stands and whatever was computed already. `matched_tokens_exact` says for which resident
  chunks, block size and computed tokens this is at most what the leading run of resident chunks
  adds to the computed tokens.

  The two lookups may find different stores. The agent makes none unless it offloads to the
  daemon, and goes on without an answer; an error of the connector's own lookup is raised. The
  server hands `kv_transfer_params` to the connector as decoded, arrays as lists.
-/
import Cognitora.Auth.KeyFile
import Cognitora.Core.Json
import Cognitora.KvCached.Transfer

namespace Cognitora.Connector

open Cognitora.Core
open Cognitora.Auth (Text byteOfHex)
open Cognitora.KvCached (BlockInfo BlockAddress Store Rpc.batchLookup layerZero)
open Cognitora.Lib (Bytes encodeHex isAsciiSpace)

/-- The daemon's answer to `BatchLookup`, none if the call fails. -/
abbrev Lookup : Type := List Bytes → Option (List BlockInfo)

/-! ## Agent -/

/-- The digests the local daemon holds. -/
def residentDigests (lookup : Lookup) (digests : List Bytes) : List Bytes :=
  let values := digests.filter (·.length == 32)
  if values.isEmpty then []
  else
    match lookup values with
    | none => []
    | some entries =>
      (entries.filter fun e => e.sizeBytes > 0 && e.prefixHash.length == 32).map
        BlockInfo.prefixHash

def digestHex (digests : List Bytes) : List Text :=
  (digests.filter (·.length == 32)).map encodeHex

/-- A list of strings as a JSON array. -/
def strings (texts : List Text) : Json :=
  .arr (texts.map fun t => .str (String.ofList t))

def kvTransferParamsFromDigests (digests resident : List Bytes) : Option Json :=
  if (digestHex digests).isEmpty then none
  else some (.obj (("cgn_prefix_digests", strings (digestHex digests)) ::
    if (digestHex resident).isEmpty then []
    else [("cgn_resident_digests", strings (digestHex resident))]))

/-! ## Connector -/

/-- An item of a list in `kv_transfer_params`. -/
inductive Item where
  | bytes (b : Bytes)
  | str (s : Text)
  | other

abbrev Params : Type := List (String × List Item)

def Item.ofJson : Json → Item
  | .str s => .str s.toList
  | _ => .other

/-- The attribute of the request the server makes of the JSON value. -/
def Params.ofJson : Json → Params
  | .obj fields => fields.map fun field => (field.1, (field.2.asArray.getD []).map Item.ofJson)
  | _ => []

/-- The first of the lists under the names that is there and not empty. -/
def Params.firstOf (extra : Params) : List String → List Item
  | [] => []
  | name :: names =>
    match extra.lookup name with
    | some (item :: items) => item :: items
    | _ => firstOf extra names

/-- `bytes.fromhex`, which skips ASCII white space between bytes; none is a `ValueError`. -/
def fromHex : Text → Option Bytes
  | [] => some []
  | [c] => if isAsciiSpace c.toNat then some [] else none
  | c :: d :: rest =>
    if isAsciiSpace c.toNat then fromHex (d :: rest)
    else
      match byteOfHex c d with
      | .ok b => (fromHex rest).map (b :: ·)
      | .error _ => none

/-- The loop of `request_prefix_digests`. -/
def collect : List Item → Option (List Bytes)
  | [] => some []
  | .bytes b :: items => if b.length = 32 then (collect items).map (b :: ·) else collect items
  | .str s :: items =>
    if s.length = 64 then (fromHex s).bind fun b => (collect items).map (b :: ·)
    else collect items
  | .other :: items => collect items

/-- Where the connector looks for digests, in this order. -/
def digestFields : List String :=
  ["cgn_resident_digests", "cgn_prefix_digests", "prefix_hashes"]

def requestPrefixDigests (kvTransferParams : Option Params) : Option (List Bytes) :=
  collect ((kvTransferParams.getD []).firstOf digestFields)

/-- `KvCachedClient.batch_lookup`: the keys of the dict it returns. -/
def batchLookup (lookup : Lookup) (digests : List Bytes) : Option (List Bytes) :=
  let values := digests.filter (·.length == 32)
  if values.isEmpty then some []
  else (lookup values).map fun entries =>
    (entries.filter fun e => e.sizeBytes > 0 && !e.prefixHash.isEmpty).map BlockInfo.prefixHash

/-- `blockTokens` is `CGN_KV_BLOCK_TOKENS`, if set. -/
def getNumNewMatchedTokens (lookup : Lookup) (blockTokens : Option Int)
    (kvTransferParams : Option Params) (_numComputedTokens : Nat) : Option (Int × Bool) :=
  (requestPrefixDigests kvTransferParams).bind fun digests =>
    if digests.isEmpty then some (0, false)
    else
      (batchLookup lookup digests).map fun resident =>
        if resident.isEmpty then (0, false)
        else
          let hits := digests.countP resident.contains
          (hits * blockTokens.getD 16, false)

/-! ## What the daemon reports -/

/-- The size under which a block is reported: of the bytes in RAM, else of the index entry. -/
def blockSize (s : Store) (addr : BlockAddress) : Option Nat :=
  ((s.ram.bytesAt addr).map List.length).or ((s.index.lookup addr).map KvCached.BlockMeta.bytes)

/-- The layer-0 block of the digest is there and has bytes. -/
def resident (s : Store) (d : Digest) : Bool :=
  0 < (blockSize s (layerZero d)).getD 0

theorem map_lookup_bytes (s : Store) (now : Nat) (addr : BlockAddress) :
    (s.lookup now addr).1.map (·.info.bytes) = blockSize s addr := by
  unfold Store.lookup blockSize KvCached.RamTier.handleAt KvCached.RamTier.bytesAt
  cases s.ram.inner.lookup addr with
  | some slot => rfl
  | none => cases s.index.lookup addr <;> rfl

theorem blockSize_lookup (s : Store) (now : Nat) (addr a : BlockAddress) :
    blockSize (s.lookup now addr).2 a = blockSize s a := by
  unfold Store.lookup
  cases s.ram.handleAt now addr with
  | some h =>
    unfold blockSize
    dsimp only
    rw [KvCached.RamTier.bytesAt_touch]
  | none => rfl

theorem resident_lookup (s : Store) (now : Nat) (addr : BlockAddress) :
    resident (s.lookup now addr).2 = resident s := by
  funext d
  unfold resident
  rw [blockSize_lookup]

/-- The entries that both readers keep are those of the resident digests. -/
theorem filter_batchLookup {keep : BlockInfo → Bool}
    (hkeep : ∀ d : Digest, ∀ e, e.prefixHash = d.toList → keep e = decide (e.sizeBytes > 0))
    (s : Store) (now : Nat) (digests : List Digest) :
    ((Rpc.batchLookup s now (digests.map Vector.toList)).1.filter keep).map BlockInfo.prefixHash =
      (digests.filter (resident s)).map Vector.toList := by
  induction digests generalizing s with
  | nil => rfl
  | cons d digests ih =>
    have hsize := map_lookup_bytes s now (layerZero d)
    have hrest := ih (s.lookup now (layerZero d)).2
    rw [resident_lookup] at hrest
    rw [List.map_cons, Rpc.batchLookup, KvCached.digestFromBytes_toList, List.filter_cons]
    dsimp only
    unfold resident at hrest ⊢
    cases hfound : s.lookup now (layerZero d) with
    | mk handle s' =>
      rw [hfound] at hsize hrest
      cases handle with
      | none =>
        rw [← hsize, if_neg (by simp)]
        exact hrest
      | some handle =>
        have hinfo : keep (KvCached.infoOf d handle) = decide (handle.info.bytes > 0) :=
          hkeep d _ rfl
        dsimp only
        rw [← hsize, List.filter_cons, hinfo]
        by_cases hpos : 0 < handle.info.bytes
        · rw [if_pos (by simpa using hpos), if_pos (by simpa using hpos), List.map_cons,
            List.map_cons, hrest]
          rfl
        · rw [if_neg (by simpa using hpos), if_neg (by simpa using hpos), hrest]

theorem filter_length_toList (digests : List Digest) :
    (digests.map Vector.toList).filter (·.length == 32) = digests.map Vector.toList := by
  refine List.filter_eq_self.mpr fun b hb => ?_
  obtain ⟨d, -, rfl⟩ := List.mem_map.mp hb
  exact beq_iff_eq.mpr Vector.length_toList

/-! ## What is attached -/

def daemon (s : Store) (now : Nat) : Lookup := fun values =>
  some (Rpc.batchLookup s now values).1

/-- The agent asks a daemon, or gets no answer. -/
def agentLookup : Option (Store × Nat) → Lookup
  | none => fun _ => none
  | some (s, now) => daemon s now

/-- What reaches the connector of a request with the digests. -/
def attached (agent : Option (Store × Nat)) (digests : List Digest) : Option Params :=
  (kvTransferParamsFromDigests (digests.map Vector.toList)
    (residentDigests (agentLookup agent) (digests.map Vector.toList))).map Params.ofJson

/-- The digests the agent found resident. -/
def held (agent : Option (Store × Nat)) (digests : List Digest) : List Digest :=
  match agent with
  | none => []
  | some (s, _) => digests.filter (resident s)

/-- The digests the connector goes through: those the agent found, all if it found none. -/
def offered (agent : Option (Store × Nat)) (digests : List Digest) : List Digest :=
  if (held agent digests).isEmpty then digests else held agent digests

theorem residentDigests_eq (agent : Option (Store × Nat)) (digests : List Digest) :
    residentDigests (agentLookup agent) (digests.map Vector.toList) =
      (held agent digests).map Vector.toList := by
  unfold residentDigests held
  rw [filter_length_toList]
  rcases agent with _ | ⟨s, now⟩
  · dsimp only [agentLookup]
    split <;> rfl
  · dsimp only [agentLookup, daemon]
    split
    · next hnil =>
      rw [List.isEmpty_iff, List.map_eq_nil_iff] at hnil
      rw [hnil]
      rfl
    · refine filter_batchLookup (fun d e hd => ?_) s now digests
      rw [hd, Vector.length_toList, beq_self_eq_true, Bool.and_true]

theorem isAsciiSpace_digitChar : ∀ n : Fin 16, isAsciiSpace (Nat.digitChar n).toNat = false := by
  decide

theorem fromHex_encodeHex (bytes : Bytes) : fromHex (encodeHex bytes) = some bytes := by
  induction bytes with
  | nil => rfl
  | cons b bytes ih =>
    have hb := b.toNat_lt
    have hspace : isAsciiSpace (Nat.digitChar (b.toNat / 16)).toNat = false :=
      isAsciiSpace_digitChar ⟨b.toNat / 16, by omega⟩
    show fromHex (_ :: _ :: encodeHex bytes) = _
    rw [fromHex, hspace, if_neg Bool.false_ne_true, Auth.byteOfHex_digitChar, ih]
    rfl

/-- The items the connector finds for a list of digests. -/
def items (digests : List Digest) : List Item :=
  digests.map fun d => .str (encodeHex d.toList)

theorem collect_items (digests : List Digest) :
    collect (items digests) = some (digests.map Vector.toList) := by
  induction digests with
  | nil => rfl
  | cons d digests ih =>
    show collect (Item.str (encodeHex d.toList) :: items digests) = _
    have hlength : (encodeHex d.toList).length = 64 := by
      rw [Lib.length_encodeHex, Vector.length_toList]
    rw [collect, if_pos hlength, fromHex_encodeHex, ih]
    rfl

/-- A list of digests survives the way through JSON. -/
theorem ofJson_strings (digests : List Digest) :
    ((strings (digestHex (digests.map Vector.toList))).asArray.getD []).map Item.ofJson =
      items digests := by
  unfold strings digestHex items
  rw [filter_length_toList]
  simp [Json.asArray, Item.ofJson]

theorem isEmpty_digestHex (digests : List Digest) :
    (digestHex (digests.map Vector.toList)).isEmpty = digests.isEmpty := by
  unfold digestHex
  rw [filter_length_toList, List.isEmpty_map, List.isEmpty_map]

theorem firstOf_prefix (all : List Digest) :
    Params.firstOf [("cgn_prefix_digests", items all)] digestFields = items all := by
  cases all <;> rfl

theorem firstOf_resident (all : List Item) {found : List Digest} (h : found ≠ []) :
    Params.firstOf [("cgn_prefix_digests", all), ("cgn_resident_digests", items found)]
      digestFields = items found := by
  cases found with
  | nil => exact absurd rfl h
  | cons d found => rfl

theorem requestPrefixDigests_attached (agent : Option (Store × Nat)) (digests : List Digest) :
    requestPrefixDigests (attached agent digests) =
      some ((offered agent digests).map Vector.toList) := by
  have hitems : ((attached agent digests).getD []).firstOf digestFields =
      items (offered agent digests) := by
    unfold attached kvTransferParamsFromDigests offered
    rw [residentDigests_eq, isEmpty_digestHex, isEmpty_digestHex]
    by_cases hdigests : digests = []
    · have hnone : held agent [] = [] := by
        unfold held
        split <;> rfl
      rw [hdigests, hnone]
      rfl
    · rw [if_neg (by simpa using hdigests), Option.map_some, Option.getD_some]
      by_cases hheld : held agent digests = []
      · rw [if_pos (by simpa using hheld), if_pos (by simpa using hheld), Params.ofJson,
          List.map_cons, List.map_nil, ofJson_strings]
        exact firstOf_prefix digests
      · rw [if_neg (by simpa using hheld), if_neg (by simpa using hheld), Params.ofJson,
          List.map_cons, List.map_cons, List.map_nil, ofJson_strings, ofJson_strings]
        exact firstOf_resident _ hheld
  rw [requestPrefixDigests, hitems, collect_items]

/-! ## What is reported -/

theorem batchLookup_daemon (s : Store) (now : Nat) (digests : List Digest) :
    batchLookup (daemon s now) (digests.map Vector.toList) =
      some ((digests.filter (resident s)).map Vector.toList) := by
  unfold batchLookup
  rw [filter_length_toList]
  dsimp only [daemon]
  split
  · next hnil =>
    rw [List.isEmpty_iff, List.map_eq_nil_iff] at hnil
    rw [hnil]
    rfl
  · refine congrArg some (filter_batchLookup (fun d e hd => ?_) s now digests)
    have hne : e.prefixHash.isEmpty = false := by
      rw [hd, List.isEmpty_eq_false_iff, ← List.length_pos_iff, Vector.length_toList]
      decide
    rw [hne, Bool.not_false, Bool.and_true]

theorem countP_contains (s : Store) (digests : List Digest) :
    (digests.map Vector.toList).countP
        ((digests.filter (resident s)).map Vector.toList).contains =
      digests.countP (resident s) := by
  rw [List.countP_map]
  refine List.countP_congr fun d hd => ?_
  rw [Function.comp_apply, List.contains_iff_mem, List.mem_map]
  constructor
  · rintro ⟨d', hmem, heq⟩
    rw [← Vector.toList_inj.mp heq]
    exact (List.mem_filter.mp hmem).2
  · intro hres
    exact ⟨d, List.mem_filter.mpr ⟨hd, hres⟩, rfl⟩

theorem getNumNewMatchedTokens_attached (agent : Option (Store × Nat)) (s : Store) (now : Nat)
    (blockTokens : Option Int) (digests : List Digest) (numComputedTokens : Nat) :
    getNumNewMatchedTokens (daemon s now) blockTokens (attached agent digests)
        numComputedTokens =
      some ((offered agent digests).countP (resident s) * blockTokens.getD 16, false) := by
  unfold getNumNewMatchedTokens
  rw [requestPrefixDigests_attached, Option.bind_some]
  split
  · next hnil =>
    rw [List.isEmpty_iff, List.map_eq_nil_iff] at hnil
    simp [hnil]
  · rw [batchLookup_daemon, Option.map_some, countP_contains]
    split
    · next hnone =>
      rw [List.isEmpty_iff, List.map_eq_nil_iff] at hnone
      have hzero : (offered agent digests).countP (resident s) = 0 := by
        rw [List.countP_eq_length_filter, hnone]
        rfl
      simp [hzero]
    · rfl

/-- The prompt tokens that the leading run of resident chunks covers. -/
def coveredTokens (s : Store) (digests : List Digest) (tokens : List UInt32) : Nat :=
  (tokens.take (tokensPerChunk * (digests.takeWhile (resident s)).length)).length

/-- The tokens that the cache adds to those already computed. -/
def newTokens (s : Store) (digests : List Digest) (tokens : List UInt32)
    (numComputedTokens : Nat) : Nat :=
  coveredTokens s digests tokens - numComputedTokens

/-- The digest is on the list the connector goes through. -/
def offers (agent : Option (Store × Nat)) (digests : List Digest) (d : Digest) : Bool :=
  (held agent digests).isEmpty || agent.any fun a => resident a.1 d

theorem offered_eq_filter (agent : Option (Store × Nat)) (digests : List Digest) :
    offered agent digests = digests.filter (offers agent digests) := by
  unfold offered offers
  cases hheld : (held agent digests).isEmpty with
  | true => simp
  | false =>
    rcases agent with _ | ⟨s, now⟩
    · exact absurd hheld (by simp [held])
    · simp [held]

/-- The chunks that count: those of the leading run, and those behind a missing one. -/
theorem countP_offered (agent : Option (Store × Nat)) (s : Store) (digests : List Digest) :
    (offered agent digests).countP (resident s) =
      (digests.takeWhile (resident s)).countP (offers agent digests) +
        ((digests.dropWhile (resident s)).filter (resident s)).countP (offers agent digests) := by
  rw [offered_eq_filter, List.countP_filter, List.countP_filter]
  generalize offers agent digests = offer
  have hrun : (digests.takeWhile (resident s)).countP offer =
      (digests.takeWhile (resident s)).countP fun d => resident s d && offer d :=
    List.countP_congr fun d hd => by rw [List.mem_takeWhile_imp hd, Bool.true_and]
  simp only [Bool.and_comm (offer _)]
  rw [hrun, ← List.countP_append, List.takeWhile_append_dropWhile]

section

variable (hash : List UInt8 → Digest) (salt : String) (tokens : List UInt32)
  (agent : Option (Store × Nat)) (s : Store) (now : Nat) (blockTokens : Option Int)
  (numComputedTokens : Nat)

/-- What the connector answers for a prompt of the given tokens. -/
def answer : Option (Int × Bool) :=
  getNumNewMatchedTokens (daemon s now) blockTokens
    (attached agent (hashSeqChunks hash salt tokens)) numComputedTokens

/-- Nothing is counted, or what is counted, in the leading run and behind it, goes with the
    computed tokens into the tokens of the run. -/
def FitsRun : Prop :=
  let digests := hashSeqChunks hash salt tokens
  let run := digests.takeWhile (resident s)
  let behind := (digests.dropWhile (resident s)).filter (resident s)
  let block := blockTokens.getD 16
  block ≤ 0 ∨ (∀ d ∈ run ++ behind, offers agent digests d = false) ∨
    (run.countP (offers agent digests) + behind.countP (offers agent digests)) * block +
      numComputedTokens ≤ min (tokensPerChunk * run.length) tokens.length

end

/-- The answer, a block of tokens for each offered chunk that is resident, is at most what the
    cache adds to the computed tokens exactly if `FitsRun`. -/
theorem matched_tokens_exact (hash : List UInt8 → Digest) (salt : String) (tokens : List UInt32)
    (agent : Option (Store × Nat)) (s : Store) (now : Nat) (blockTokens : Option Int)
    (numComputedTokens : Nat) :
    ∃ n : Int, answer hash salt tokens agent s now blockTokens numComputedTokens =
        some (n, false) ∧
      (n ≤ newTokens s (hashSeqChunks hash salt tokens) tokens numComputedTokens ↔
        FitsRun hash salt tokens agent s blockTokens numComputedTokens) := by
  refine ⟨_, getNumNewMatchedTokens_attached agent s now blockTokens _ numComputedTokens, ?_⟩
  unfold FitsRun newTokens coveredTokens
  dsimp only
  rw [List.length_take]
  generalize hashSeqChunks hash salt tokens = digests
  generalize blockTokens.getD 16 = block
  have hcount := (countP_offered agent s digests).symm
  -- nothing is counted exactly if no chunk of the two parts is offered
  have hnone : (∀ d ∈ digests.takeWhile (resident s) ++
      (digests.dropWhile (resident s)).filter (resident s), offers agent digests d = false) ↔
        (offered agent digests).countP (resident s) = 0 := by
    rw [← hcount, ← List.countP_append, List.countP_eq_zero]
    simp only [Bool.not_eq_true]
  rw [hnone, ← Int.natCast_add, hcount]
  generalize (offered agent digests).countP (resident s) = hits
  generalize min (tokensPerChunk * (digests.takeWhile (resident s)).length) tokens.length = covered
  constructor
  · intro hle
    rcases Int.lt_or_le 0 block with hblock | hblock
    · rcases Nat.eq_zero_or_pos hits with hzero | hpos
      · exact .inr (.inl hzero)
      · have hprod : 0 < (hits : Int) * block := Int.mul_pos (by omega) hblock
        exact .inr (.inr (by omega))
    · exact .inl hblock
  · rintro (hblock | hzero | hfits)
    · have hprod : (hits : Int) * block ≤ 0 :=
        Int.mul_nonpos_of_nonneg_of_nonpos (by omega) hblock
      omega
    · rw [hzero]
      simp
    · omega

/-- No chunk is resident behind the leading run. -/
def NoGap (s : Store) (digests : List Digest) : Prop :=
  ∀ d ∈ digests.dropWhile (resident s), resident s d = false

/-- A run of the chunks covers half a chunk of tokens for each: the last chunk may be short, but
    then another one is full or the prompt has these tokens anyway. -/
theorem sixteen_mul_run_le (hash : List UInt8 → Digest) (salt : String) {tokens : List UInt32}
    (h : 16 ≤ tokens.length) (s : Store) :
    16 * ((hashSeqChunks hash salt tokens).takeWhile (resident s)).length ≤
      min (tokensPerChunk * ((hashSeqChunks hash salt tokens).takeWhile (resident s)).length)
        tokens.length := by
  have hrun : ((hashSeqChunks hash salt tokens).takeWhile (resident s)).length ≤
      (hashSeqChunks hash salt tokens).length := (List.takeWhile_sublist _).length_le
  rw [length_hashSeqChunks] at hrun
  unfold tokensPerChunk at hrun ⊢
  omega

/-- With the default block size the answer fits if nothing is computed, no chunk is resident
    behind a missing one and the prompt has a block of tokens. -/
theorem fitsRun_of_noGap (hash : List UInt8 → Digest) (salt : String) {tokens : List UInt32}
    (agent : Option (Store × Nat)) {s : Store} (hgap : NoGap s (hashSeqChunks hash salt tokens))
    (hlen : 16 ≤ tokens.length) : FitsRun hash salt tokens agent s none 0 := by
  have hbehind : ((hashSeqChunks hash salt tokens).dropWhile (resident s)).filter (resident s) =
      [] := List.filter_eq_nil_iff.mpr fun d hd => by rw [hgap d hd]; exact Bool.false_ne_true
  have hrun := sixteen_mul_run_le hash salt hlen s
  have hcount := List.countP_le_length (p := offers agent (hashSeqChunks hash salt tokens))
    (l := (hashSeqChunks hash salt tokens).takeWhile (resident s))
  unfold FitsRun
  dsimp only
  rw [hbehind, List.countP_nil, Option.getD_none]
  exact .inr (.inr (by omega))

/-- A daemon that holds the second chunk of `forked 32` only. -/
def secondOnly : Store :=
  (Store.new 1024).admitRam 0 (layerZero (hashSeqChunk blake3Sample "m" digestHead [32])) [1] "m"

/-- A chunk behind a missing one is reported as 16 cached tokens. -/
theorem gap_is_reported :
    ¬ ∀ (hash : List UInt8 → Digest) (salt : String) (tokens : List UInt32)
      (agent : Option (Store × Nat)) (s : Store) (now numComputedTokens : Nat) (n : Int),
      answer hash salt tokens agent s now none numComputedTokens = some (n, false) →
        n ≤ newTokens s (hashSeqChunks hash salt tokens) tokens numComputedTokens := by
  intro h
  have hle := h blake3Sample "m" (forked 32) (some (secondOnly, 0)) secondOnly 0 0 16
    (by decide +kernel)
  exact absurd hle (by decide +kernel)

end Cognitora.Connector

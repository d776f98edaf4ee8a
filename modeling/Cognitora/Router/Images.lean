/-
  Prompts that differ in their images (cgn-router `src/routing/prompt.rs`; cgn-core
  `src/hash.rs`).

  `join_messages` writes an image as the hex digest of its URL, always 64 characters that the
  tokeniser neither skips nor takes for a script of its own. So two prompts that differ in image
  URLs only are texts of one shape (`Alike` characters in the same places), the tokeniser cuts
  both at the same places, and what differs is inside some pieces. `images_never_share_digests`:
  the texts and the token lists differ, the token lists are equally long, and the digests agree
  on the chunks before the first differing token and on no others.

  The tokens are read as the hashes of `pieces`, the tokeniser without its hash.
-/
import Cognitora.Router.Prompt
import Cognitora.Router.TenantSalt

namespace Cognitora.Router

open Cognitora.Core Cognitora.Lib
open Cognitora.Auth (isWhitespace)

/-! ## Pieces -/

/-- The pieces closed so far and the open one. -/
structure Cut where
  done : List (List Char)
  piece : List Char

namespace Cut

def close (s : Cut) : Cut :=
  if s.piece.isEmpty then s else ⟨s.done ++ [s.piece], []⟩

def step (s : Cut) (c : Char) : Cut :=
  let s := if isWhitespace c || isCjk c || s.piece.length == charsPerToken then s.close else s
  if isWhitespace c then s else
    let s : Cut := ⟨s.done, s.piece ++ [c]⟩
    if isCjk c then s.close else s

def ofText (text : List Char) : Cut :=
  text.foldl step ⟨[], []⟩

end Cut

/-- The pieces `approximate_token_ids` hashes. -/
def pieces (text : List Char) : List (List Char) :=
  (Cut.ofText text).close.done

namespace Cut

variable {hash : List UInt8 → Digest}

/-- The scan that has hashed the closed pieces. -/
def scan (hash : List UInt8 → Digest) (s : Cut) : Scan where
  out := s.done.map (pieceToken hash)
  piece := s.piece
  chars := s.piece.length

theorem scan_close (s : Cut) :
    (if s.piece.isEmpty then s.scan hash else (s.scan hash).emit hash) = s.close.scan hash := by
  unfold close
  split
  · rfl
  · simp [scan, Scan.emit]

theorem scan_step (s : Cut) (c : Char) : (s.scan hash).step hash c = (s.step c).scan hash := by
  have hcut : (s.scan hash).cut hash c =
      (if isWhitespace c || isCjk c || s.piece.length == charsPerToken then s.close
        else s).scan hash := by
    unfold Scan.cut
    show (if isWhitespace c || isCjk c || s.piece.length == charsPerToken then
      if s.piece.isEmpty then _ else _ else _) = _
    rw [scan_close]
    split <;> rfl
  have hpush : ∀ s : Cut, (s.scan hash).push hash c =
      (if isCjk c then close ⟨s.done, s.piece ++ [c]⟩ else ⟨s.done, s.piece ++ [c]⟩).scan hash := by
    intro s
    unfold Scan.push
    dsimp only
    split
    · simp [scan, Scan.emit, close]
    · simp [scan]
  unfold Scan.step step
  dsimp only
  rw [hcut, hpush]
  split <;> rfl

theorem scan_ofText (text : List Char) :
    text.foldl (Scan.step hash) Scan.new = (ofText text).scan hash := by
  have hrun : ∀ s : Cut, text.foldl (Scan.step hash) (s.scan hash) =
      (text.foldl step s).scan hash := by
    induction text with
    | nil => exact fun _ => rfl
    | cons c text ih =>
      intro s
      rw [List.foldl_cons, List.foldl_cons, scan_step, ih]
  exact hrun ⟨[], []⟩

end Cut

/-- The tokens are the hashes of the pieces. -/
theorem approximateTokenIds_eq_map (hash : List UInt8 → Digest) (text : List Char) :
    approximateTokenIds hash text = (pieces text).map (pieceToken hash) := by
  rw [approximateTokenIds, Cut.scan_ofText, pieces]
  unfold Scan.finish Cut.close
  show (if (Cut.ofText text).piece.isEmpty then _ else _) = _
  split
  · rfl
  · simp [Cut.scan, Scan.emit]

theorem Cut.flatten_close (s : Cut) :
    s.close.done.flatten ++ s.close.piece = s.done.flatten ++ s.piece := by
  unfold Cut.close
  split
  · rfl
  · simp

theorem Cut.piece_close (s : Cut) : s.close.piece = [] := by
  unfold Cut.close
  split
  · next h => exact List.isEmpty_iff.mp h
  · rfl

theorem Cut.flatten_step (s : Cut) (c : Char) :
    (s.step c).done.flatten ++ (s.step c).piece =
      s.done.flatten ++ s.piece ++ [c].filter fun c => !isWhitespace c := by
  have hcut : ∀ b : Bool, (if b then s.close else s).done.flatten ++
      (if b then s.close else s).piece = s.done.flatten ++ s.piece := by
    intro b
    split
    · exact s.flatten_close
    · rfl
  unfold Cut.step
  dsimp only
  split
  · next hw => rw [hcut, List.filter_cons_of_neg (by simp [hw]), List.filter_nil, List.append_nil]
  · next hw =>
    rw [List.filter_cons_of_pos (by simpa using hw), List.filter_nil, ← hcut]
    split
    · rw [Cut.flatten_close, List.append_assoc]
    · rw [List.append_assoc]

theorem Cut.flatten_foldl (text : List Char) (s : Cut) :
    (text.foldl Cut.step s).done.flatten ++ (text.foldl Cut.step s).piece =
      s.done.flatten ++ s.piece ++ text.filter fun c => !isWhitespace c := by
  induction text generalizing s with
  | nil => simp
  | cons c text ih =>
    rw [List.foldl_cons, ih, Cut.flatten_step, List.append_assoc, ← List.filter_append]
    rfl

/-- The pieces are the text without its white space. -/
theorem flatten_pieces (text : List Char) :
    (pieces text).flatten = text.filter fun c => !isWhitespace c := by
  have hall := (Cut.ofText text).flatten_close
  rw [Cut.piece_close, List.append_nil] at hall
  rw [pieces, hall]
  exact Cut.flatten_foldl text ⟨[], []⟩

/-! ## Texts of one shape -/

/-- A character that only a full piece or its neighbours cut off. -/
def Plain (c : Char) : Prop :=
  isWhitespace c = false ∧ isCjk c = false

/-- The tokeniser treats the characters in the same way. -/
def Alike (c c' : Char) : Prop :=
  c = c' ∨ Plain c ∧ Plain c'

theorem Alike.kind {c c' : Char} (h : Alike c c') :
    isWhitespace c = isWhitespace c' ∧ isCjk c = isCjk c' := by
  rcases h with rfl | ⟨hc, hc'⟩
  · exact ⟨rfl, rfl⟩
  · exact ⟨hc.1.trans hc'.1.symm, hc.2.trans hc'.2.symm⟩

/-- As many closed pieces, and open pieces of one length. -/
def Cut.SameShape (s s' : Cut) : Prop :=
  s.done.length = s'.done.length ∧ s.piece.length = s'.piece.length

theorem Cut.SameShape.close {s s' : Cut} (h : s.SameShape s') : s.close.SameShape s'.close := by
  have hempty : s.piece.isEmpty = s'.piece.isEmpty := by
    rw [Bool.eq_iff_iff, List.isEmpty_iff_length_eq_zero, List.isEmpty_iff_length_eq_zero, h.2]
  unfold Cut.close
  rw [hempty]
  split
  · exact h
  · exact ⟨by rw [List.length_append, List.length_append, h.1]; rfl, rfl⟩

theorem Cut.SameShape.step {s s' : Cut} (h : s.SameShape s') {c c' : Char} (hc : Alike c c') :
    (s.step c).SameShape (s'.step c') := by
  obtain ⟨hws, hcjk⟩ := hc.kind
  have hpush : ∀ {s s' : Cut}, s.SameShape s' →
      SameShape ⟨s.done, s.piece ++ [c]⟩ ⟨s'.done, s'.piece ++ [c']⟩ := by
    intro s s' h
    exact ⟨h.1, by rw [List.length_append, List.length_append, h.2]; rfl⟩
  have hcut : ∀ b : Bool, (if b then s.close else s).SameShape (if b then s'.close else s') := by
    intro b
    split
    · exact h.close
    · exact h
  unfold Cut.step
  dsimp only
  rw [hws, hcjk, h.2]
  split
  · exact hcut _
  · split
    · exact (hpush (hcut _)).close
    · exact hpush (hcut _)

theorem length_pieces_of_alike {text text' : List Char} (h : List.Forall₂ Alike text text') :
    (pieces text).length = (pieces text').length := by
  have hrun : ∀ s s' : Cut, s.SameShape s' →
      (text.foldl Cut.step s).SameShape (text'.foldl Cut.step s') := by
    induction h with
    | nil => exact fun _ _ hs => hs
    | cons hc _ ih => exact fun s s' hs => ih _ _ (hs.step hc)
  exact (hrun ⟨[], []⟩ ⟨[], []⟩ ⟨rfl, rfl⟩).close.1

/-- White space stands in the same places, so what is between it tells the texts apart. -/
theorem eq_of_alike_of_filter {text text' : List Char} (h : List.Forall₂ Alike text text')
    (heq : (text.filter fun c => !isWhitespace c) = text'.filter fun c => !isWhitespace c) :
    text = text' := by
  induction h with
  | nil => rfl
  | @cons c c' text text' hc _ ih =>
    have hws := hc.kind.1
    by_cases hw : isWhitespace c = true
    · have hsame : c = c' := by
        rcases hc with hsame | hplain
        · exact hsame
        · rw [hplain.1.1] at hw
          cases hw
      rw [List.filter_cons_of_neg (by simp [hw]), List.filter_cons_of_neg (by simp [← hws, hw])]
        at heq
      rw [hsame, ih heq]
    · rw [List.filter_cons_of_pos (by simpa using hw),
        List.filter_cons_of_pos (by simpa [← hws] using hw), List.cons.injEq] at heq
      rw [heq.1, ih heq.2]

theorem pieces_ne_of_alike {text text' : List Char} (h : List.Forall₂ Alike text text')
    (hne : text ≠ text') : pieces text ≠ pieces text' := by
  intro heq
  refine hne (eq_of_alike_of_filter h ?_)
  rw [← flatten_pieces, ← flatten_pieces, heq]

/-! ## Tokens -/

/-- `to_le_bytes` undoes `from_le_bytes`. -/
theorem toLeBytes_of_bytes (a b c d : UInt8) :
    toLeBytes (a.toUInt32 ||| (b.toUInt32 <<< 8) ||| (c.toUInt32 <<< 16) ||| (d.toUInt32 <<< 24)) =
      [a, b, c, d] := by
  have hout : ∀ (x : UInt8) (i : Nat), 8 ≤ i → x.toBitVec.getLsbD i = false :=
    fun x i hi => BitVec.getLsbD_of_ge x.toBitVec i hi
  simp only [toLeBytes, List.cons.injEq, and_true, ← UInt8.toBitVec_inj]
  refine ⟨?_, ?_, ?_, ?_⟩
  · ext i hi
    simp
  · ext i hi
    have h1 : i < 32 := by omega
    have h2 : 8 + i < 16 := by omega
    have h3 : 8 + i < 24 := by omega
    have h4 : 8 + i < 32 := by omega
    simp [h1, h2, h3, h4, hi]
  · ext i hi
    have h1 : i < 32 := by omega
    have h2 : ¬ 16 + i < 16 := by omega
    have h3 : 16 + i < 24 := by omega
    have h4 : 16 + i < 32 := by omega
    simp [h1, h2, h3, h4, hi, hout a (16 + i) (by omega), hout b (16 + i - 8) (by omega)]
  · ext i hi
    have h1 : i < 32 := by omega
    have h2 : ¬ 24 + i < 24 := by omega
    have h4 : 24 + i < 32 := by omega
    simp [h1, h2, h4, hi, hout a (24 + i) (by omega), hout b (24 + i - 8) (by omega),
      hout c (24 + i - 16) (by omega)]

/-- The first four bytes of a piece's hash. -/
def pieceBytes (hash : List UInt8 → Digest) (piece : List Char) : List UInt8 :=
  (hash (utf8 piece)).toList.take 4

theorem toLeBytes_pieceToken (hash : List UInt8 → Digest) (piece : List Char) :
    toLeBytes (pieceToken hash piece) = pieceBytes hash piece := by
  rw [pieceToken, toLeBytes_of_bytes, pieceBytes]
  refine List.ext_getElem (by simp) fun i hi _ => ?_
  rw [List.getElem_take, Vector.getElem_toList]
  have hi4 : i = 0 ∨ i = 1 ∨ i = 2 ∨ i = 3 := by
    simp only [List.length_cons, List.length_nil] at hi
    omega
  rcases hi4 with rfl | rfl | rfl | rfl <;> rfl

theorem pieceToken_injOn {hash : List UInt8 → Digest} {P : Set (List Char)}
    (h : Set.InjOn (pieceBytes hash) P) : Set.InjOn (pieceToken hash) P := by
  intro p hp q hq heq
  refine h hp hq ?_
  rw [← toLeBytes_pieceToken, ← toLeBytes_pieceToken, heq]

/-- Different lists of pieces have different tokens. -/
theorem map_pieceToken_inj {hash : List UInt8 → Digest} {l m : List (List Char)}
    (h : Set.InjOn (pieceBytes hash) {p | p ∈ l ∨ p ∈ m})
    (heq : l.map (pieceToken hash) = m.map (pieceToken hash)) : l = m := by
  have hinj := pieceToken_injOn h
  have hlength : l.length = m.length := by simpa using congrArg List.length heq
  refine List.ext_getElem hlength fun i hi hj => ?_
  have htoken : (l.map (pieceToken hash))[i]? = (m.map (pieceToken hash))[i]? := by rw [heq]
  rw [List.getElem?_map, List.getElem?_map, List.getElem?_eq_getElem hi,
    List.getElem?_eq_getElem hj, Option.map_some, Option.map_some, Option.some.injEq] at htoken
  exact hinj (Or.inl (List.getElem_mem hi)) (Or.inr (List.getElem_mem hj)) htoken

/-! ## Messages that differ in image URLs -/

/-- The URL of an image part: a part without text whose URL is a string. -/
def imageUrl (p : Json) : Option String :=
  match (p.get "text").bind Json.asStr with
  | some _ => none
  | none => ((p.get "image_url").bind (·.get "url")).bind Json.asStr

/-- The parts are equal, or both are images. The other fields of an image part are not read. -/
def SamePart (p q : Json) : Prop :=
  p = q ∨ (imageUrl p).isSome ∧ (imageUrl q).isSome

/-- The parts of a multimodal content. -/
def partsOf (r : JsonReader) (m : PMessage) : List Json :=
  ((r.fromStr m.contentJson).bind Json.asArray).getD []

/-- The messages are equal except for the URLs of image parts. -/
structure SameMessage (r : JsonReader) (m m' : PMessage) : Prop where
  role : m.role = m'.role
  content : m.content = m'.content
  json : m.contentJson = m'.contentJson ∨
    ∃ ps qs, r.fromStr m.contentJson = some (.arr ps) ∧ r.fromStr m'.contentJson = some (.arr qs) ∧
      List.Forall₂ SamePart ps qs

/-- The image URLs of a message. -/
def messageUrls (r : JsonReader) (m : PMessage) : List String :=
  (partsOf r m).flatMap fun p => (imageUrl p).toList

/-- The image URLs of a prompt, in order. -/
def imageUrls (r : JsonReader) (msgs : List PMessage) : List String :=
  msgs.flatMap (messageUrls r)

section

variable {hash : List UInt8 → Digest} {r : JsonReader}

theorem joinPart_of_image {p : Json} {url : String} (h : imageUrl p = some url) :
    joinPart hash p =
      "<image:".toList ++ encodeHex (hash (utf8 url.toList)).toList ++ ">\n".toList := by
  cases htext : (p.get "text").bind Json.asStr with
  | some t =>
    rw [imageUrl, htext] at h
    cases h
  | none =>
    rw [imageUrl, htext] at h
    obtain ⟨v, hv, hs⟩ := Option.bind_eq_some_iff.mp h
    rw [joinPart, htext]
    dsimp only
    rw [hv]
    dsimp only
    rw [hs]
    rfl

theorem plain_digitChar : ∀ n : Fin 16, Plain (Nat.digitChar n) := by
  unfold Plain
  decide

theorem alike_encodeHex (d e : Digest) :
    List.Forall₂ Alike (encodeHex d.toList) (encodeHex e.toList) := by
  rw [List.forall₂_iff_get]
  refine ⟨by simp [length_encodeHex], fun i hi hj => Or.inr ?_⟩
  exact ⟨forall_mem_encodeHex plain_digitChar _ _ (List.get_mem _ _),
    forall_mem_encodeHex plain_digitChar _ _ (List.get_mem _ _)⟩

theorem alike_refl (text : List Char) : List.Forall₂ Alike text text :=
  List.forall₂_same.mpr fun _ _ => Or.inl rfl

theorem alike_append {a b c d : List Char} (hab : List.Forall₂ Alike a b)
    (hcd : List.Forall₂ Alike c d) : List.Forall₂ Alike (a ++ c) (b ++ d) :=
  List.rel_append hab hcd

theorem SamePart.alike {p q : Json} (h : SamePart p q) :
    List.Forall₂ Alike (joinPart hash p) (joinPart hash q) := by
  rcases h with rfl | ⟨hp, hq⟩
  · exact alike_refl _
  · obtain ⟨u, hu⟩ := Option.isSome_iff_exists.mp hp
    obtain ⟨v, hv⟩ := Option.isSome_iff_exists.mp hq
    rw [joinPart_of_image hu, joinPart_of_image hv]
    exact alike_append (alike_append (alike_refl _) (alike_encodeHex _ _)) (alike_refl _)

theorem joinContent_of_parts {m : PMessage} {ps : List Json}
    (h : r.fromStr m.contentJson = some (.arr ps)) :
    joinContent hash r m = ps.flatMap (joinPart hash) := by
  have hjson : m.contentJson.isEmpty = false := by
    by_contra hempty
    rw [Bool.not_eq_false, String.isEmpty_iff] at hempty
    rw [hempty, r.fromStr_empty] at h
    cases h
  unfold joinContent
  rw [hjson, h]
  rfl

theorem SameMessage.alike_content {m m' : PMessage} (h : SameMessage r m m') :
    List.Forall₂ Alike (joinContent hash r m) (joinContent hash r m') := by
  rcases h.json with hsame | ⟨ps, qs, hp, hq, hparts⟩
  · unfold joinContent
    rw [hsame, h.content]
    exact alike_refl _
  · rw [joinContent_of_parts hp, joinContent_of_parts hq]
    exact List.rel_flatMap hparts fun _ _ hpart => hpart.alike

theorem SameMessage.alike {m m' : PMessage} (h : SameMessage r m m') :
    List.Forall₂ Alike (joinMessage hash r m) (joinMessage hash r m') := by
  unfold joinMessage
  rw [h.role]
  exact alike_append (alike_append (alike_refl _) h.alike_content) (alike_refl _)

theorem alike_joinMessages {msgs msgs' : List PMessage}
    (h : List.Forall₂ (SameMessage r) msgs msgs') :
    List.Forall₂ Alike (joinMessages hash r msgs) (joinMessages hash r msgs') :=
  List.rel_flatMap h fun _ _ hm => hm.alike

/-- Texts made of blocks of equal lengths, block by block: whatever equal blocks have in
    common, equal texts have. -/
theorem flatMap_eq_of_blocks {α β γ : Type} {R : α → α → Prop} {f : α → List β} {g : α → List γ}
    {l m : List α} (h : List.Forall₂ R l m) (hlen : ∀ a b, R a b → (f a).length = (f b).length)
    (hblock : ∀ a ∈ l, ∀ b ∈ m, R a b → f a = f b → g a = g b)
    (heq : l.flatMap f = m.flatMap f) : l.flatMap g = m.flatMap g := by
  induction h with
  | nil => rfl
  | @cons a b l m hab _ ih =>
    rw [List.flatMap_cons, List.flatMap_cons] at heq
    obtain ⟨hfirst, hrest⟩ := List.append_inj heq (hlen _ _ hab)
    rw [List.flatMap_cons, List.flatMap_cons,
      hblock a List.mem_cons_self b List.mem_cons_self hab hfirst,
      ih (fun x hx y hy => hblock x (List.mem_cons_of_mem _ hx) y (List.mem_cons_of_mem _ hy))
        hrest]

variable {U : Set (List UInt8)}

theorem imageUrl_eq_of_joinPart (hinj : Set.InjOn hash U) {p q : Json}
    (hp : ∀ u ∈ imageUrl p, utf8 u.toList ∈ U) (hq : ∀ u ∈ imageUrl q, utf8 u.toList ∈ U)
    (h : SamePart p q) (heq : joinPart hash p = joinPart hash q) : imageUrl p = imageUrl q := by
  rcases h with rfl | ⟨hu, hv⟩
  · rfl
  · obtain ⟨u, hu⟩ := Option.isSome_iff_exists.mp hu
    obtain ⟨v, hv⟩ := Option.isSome_iff_exists.mp hv
    rw [joinPart_of_image hu, joinPart_of_image hv] at heq
    have hhex := List.append_cancel_left (List.append_cancel_right heq)
    have hdigest := Vector.toList_inj.mp (encodeHex_inj hhex)
    rw [hu, hv, utf8_toList_inj (hinj (hp u hu) (hq v hv) hdigest)]

theorem messageUrls_eq_of_joinMessage (hinj : Set.InjOn hash U) {m m' : PMessage}
    (hm : ∀ u ∈ messageUrls r m, utf8 u.toList ∈ U)
    (hm' : ∀ u ∈ messageUrls r m', utf8 u.toList ∈ U)
    (h : SameMessage r m m') (heq : joinMessage hash r m = joinMessage hash r m') :
    messageUrls r m = messageUrls r m' := by
  unfold joinMessage at heq
  rw [h.role] at heq
  have hcontent := List.append_cancel_left (List.append_cancel_right heq)
  rcases h.json with hsame | ⟨ps, qs, hp, hq, hparts⟩
  · unfold messageUrls partsOf
    rw [hsame]
  · rw [joinContent_of_parts hp, joinContent_of_parts hq] at hcontent
    have hps : partsOf r m = ps := by rw [partsOf, hp]; rfl
    have hqs : partsOf r m' = qs := by rw [partsOf, hq]; rfl
    unfold messageUrls at hm hm' ⊢
    rw [hps] at hm ⊢
    rw [hqs] at hm' ⊢
    refine flatMap_eq_of_blocks hparts (fun _ _ hpart => hpart.alike.length_eq) ?_ hcontent
    intro p hp q hq hpart hjoin
    have hpU : ∀ u ∈ imageUrl p, utf8 u.toList ∈ U :=
      fun u hu => hm u (List.mem_flatMap.mpr ⟨p, hp, Option.mem_toList.mpr hu⟩)
    have hqU : ∀ u ∈ imageUrl q, utf8 u.toList ∈ U :=
      fun u hu => hm' u (List.mem_flatMap.mpr ⟨q, hq, Option.mem_toList.mpr hu⟩)
    rw [imageUrl_eq_of_joinPart hinj hpU hqU hpart hjoin]

/-- Equal texts have equal URLs. -/
theorem imageUrls_eq_of_joinMessages {msgs msgs' : List PMessage}
    (h : List.Forall₂ (SameMessage r) msgs msgs')
    (hinj : Set.InjOn hash {b | ∃ u ∈ imageUrls r msgs ++ imageUrls r msgs', b = utf8 u.toList})
    (heq : joinMessages hash r msgs = joinMessages hash r msgs') :
    imageUrls r msgs = imageUrls r msgs' := by
  refine flatMap_eq_of_blocks h (fun _ _ hm => hm.alike.length_eq) ?_ heq
  intro m hm m' hm' hsame hjoin
  refine messageUrls_eq_of_joinMessage hinj (fun u hu => ?_) (fun u hu => ?_) hsame hjoin
  · exact ⟨u, List.mem_append_left _ (List.mem_flatMap.mpr ⟨m, hm, hu⟩), rfl⟩
  · exact ⟨u, List.mem_append_right _ (List.mem_flatMap.mpr ⟨m', hm', hu⟩), rfl⟩

/-- Two token lists of one length: the digests agree on the chunks before the first difference,
    and on no others. -/
theorem getElem?_hashSeqChunks_iff_commonLen {salt : String} {t t' : List UInt32}
    (hsound : Sound hash (hashedFor hash salt salt t t')) (hlen : t.length = t'.length)
    (hne : t ≠ t') {i : Nat} (hi : i < (hashSeqChunks hash salt t).length) :
    (hashSeqChunks hash salt t)[i]? = (hashSeqChunks hash salt t')[i]? ↔
      (i + 1) * tokensPerChunk ≤ commonLen t t' := by
  have hi' : i < (hashSeqChunks hash salt t').length := by
    rw [length_hashSeqChunks] at hi ⊢
    rwa [← hlen]
  rw [getElem?_hashSeqChunks_eq_iff hsound.inj hsound.nonzero hi hi',
    take_eq_take_iff_commonLen hne hlen]
  exact and_iff_right rfl

end

/-- The tokens a prompt is hashed over. -/
def promptTokens (hash : List UInt8 → Digest) (r : JsonReader) (msgs : List PMessage) :
    List UInt32 :=
  approximateTokenIds hash (joinMessages hash r msgs)

/-- Prompts that are equal except for image URLs, at least one of which differs. `hash` is
    injective on the URLs, its first four bytes on the pieces of the two prompts, and for the
    digests it is injective on the strings hashed and never zero there. -/
theorem images_never_share_digests (hash : List UInt8 → Digest) (r : JsonReader)
    (msgs msgs' : List PMessage) (hsame : List.Forall₂ (SameMessage r) msgs msgs')
    (hurls : imageUrls r msgs ≠ imageUrls r msgs')
    (hinj : Set.InjOn hash {b | ∃ u ∈ imageUrls r msgs ++ imageUrls r msgs', b = utf8 u.toList})
    (hpieces : Set.InjOn (pieceBytes hash) {p | p ∈ pieces (joinMessages hash r msgs) ∨
      p ∈ pieces (joinMessages hash r msgs')}) :
    joinMessages hash r msgs ≠ joinMessages hash r msgs' ∧
      (promptTokens hash r msgs).length = (promptTokens hash r msgs').length ∧
      promptTokens hash r msgs ≠ promptTokens hash r msgs' ∧
      ∀ salt, Sound hash (hashedFor hash salt salt (promptTokens hash r msgs)
          (promptTokens hash r msgs')) →
        (hashSeqChunks hash salt (promptTokens hash r msgs)).length =
            (hashSeqChunks hash salt (promptTokens hash r msgs')).length ∧
          ∀ i < (hashSeqChunks hash salt (promptTokens hash r msgs)).length,
            ((hashSeqChunks hash salt (promptTokens hash r msgs))[i]? =
                (hashSeqChunks hash salt (promptTokens hash r msgs'))[i]? ↔
              (i + 1) * tokensPerChunk ≤
                commonLen (promptTokens hash r msgs) (promptTokens hash r msgs')) := by
  have halike : List.Forall₂ Alike (joinMessages hash r msgs) (joinMessages hash r msgs') :=
    alike_joinMessages hsame
  have htext : joinMessages hash r msgs ≠ joinMessages hash r msgs' :=
    fun heq => hurls (imageUrls_eq_of_joinMessages hsame hinj heq)
  have hlen : (promptTokens hash r msgs).length = (promptTokens hash r msgs').length := by
    rw [promptTokens, promptTokens, approximateTokenIds_eq_map, approximateTokenIds_eq_map,
      List.length_map, List.length_map, length_pieces_of_alike halike]
  have hne : promptTokens hash r msgs ≠ promptTokens hash r msgs' := by
    rw [promptTokens, promptTokens, approximateTokenIds_eq_map, approximateTokenIds_eq_map]
    exact fun heq => pieces_ne_of_alike halike htext (map_pieceToken_inj hpieces heq)
  refine ⟨htext, hlen, hne, fun salt hsound => ⟨?_, fun i hi => ?_⟩⟩
  · rw [length_hashSeqChunks, length_hashSeqChunks, hlen]
  · exact getElem?_hashSeqChunks_iff_commonLen hsound hlen hne hi

/-- BLAKE3 digests of texts: of the two URLs, and of the pieces of the two prompts. -/
def blake3Texts : List (String × Nat) :=
  [("data:a", 0xca585c02ea27496d78049aa0a612d908ee75609dc75e83c8eea7a9a2620a4807),
   ("<use", 0x6099cddf8b504178226b0c39ea83dc1f136705d0f901ef24bd79f0e7bc0f8365),
   ("r>", 0x8797e06d373d1f06c25e4c741296dc659164e7e57c517dbfb1c4798593719b83),
   ("<ima", 0xaa9b637f1434cd3851e4314be688797f9ad5b939aba91c6a1451309b092be6af),
   ("ge:c", 0x20c1dcbfa43a7a81bd0cbab254e4c42fff990e5211230d03eab341bf36423c0d),
   ("a585", 0xf1b519752b5340c64ecc7cc79cbc1dbb68f55fb383ab2ba61e410ff9fc82fdd7),
   ("c02e", 0x9c3fed2b6f49894596a6bdaf1b6995fecc755198096504bd3b6da95d3f81de0d),
   ("a274", 0x3071e3d59b2c25ac0c44031a2ce02ff3e483b106e0e1590e9d78b4c3cc832b79),
   ("96d7", 0x8ce9b38a6dc21c05883f2eb92b9217219e93298e9295c010422156f98de172e2),
   ("8049", 0xce31e382240854bc40a7b99bf76338b94fd7fe20e66e59ffa503692e9de697f9),
   ("aa0a", 0xd07e60838bc40e2c64eda13f2f24d3c81a1e0214c448216f857655acc51ccd31),
   ("612d", 0xd91c25dbe97659a654e8d8e7ffa63dc5b775b1871928933f88c77bc40cb180f0),
   ("908e", 0x1cd88cf151edcd071250a29716314e7271a30ea0c141ed01055b3565794e96c1),
   ("e756", 0xbcfece14ef344061f6731e1a112debea6ce2e520377e8eccfd45ce0dd54536af),
   ("09dc", 0xbcd071808d53b7536e5878018b858e6f1c1b3ba1bb0db229844fa21d7cbf679e),
   ("75e8", 0x9c6b0dab5b303e10cf7360b1d94fb35f45e6188a569418f9e42f500796100c7f),
   ("3c8e", 0x4e4fc3256420aff68097520505166d8efce3f0097d386e9d392a42915d761d2f),
   ("ea7a", 0x0f819eb86c1dfe478672c3aa46a19b04ed87ed8ec110d0b8bdfb2b4377fdb91c),
   ("9a26", 0x129057d41a657be9641dbd37b66ba9884286cee7dcabc8eb001954f64fe39749),
   ("20a4", 0x9e75beded8df9b9325cd77a16310a5c1b09a37aaadc5c98159607a7b9832558a),
   ("807>", 0xae2b4c15fdaf2bbc61a1b3f01eb2b6bc04a2e4cfb37cca42e0acc531b888429d),
   ("q", 0xf003db3c8fddc3611cd75cdcb05108606923e0bc137e99f53a83bfdd5c8fd6d6),
   ("data:b", 0x325af8e67c577ca4dbe62c48d58b7b58c7bef107a4d4d78c3f1c9c738b071677),
   ("ge:3", 0x4efcada170bfc1c1ae6f662215a20743b2f1cbc4e56ccc3b10175580f722d1f1),
   ("25af", 0x721e4f3bf3de911d05d7fed1fa2f9b99f207658d60cd433d5cfdbcfea20e7f8c),
   ("8e67", 0x5fb459311b355609ce6f4d709d4c602af3b6114705b940e6050cda7b6f3fc7ef),
   ("c577", 0xae6ec45cdb2ed6134f4dd205742eb043e615453fac22443f2886382573669007),
   ("ca4d", 0xd041d1197180a323f7444463686a5c89f572202a71db984d1793c381af712825),
   ("be62", 0x6ea558ca3d1b08c8b21fa069d80efd387f7aa15d96d4d21239743e53ca998df4),
   ("c48d", 0xf12961327729f6f9a117f4959f47571c24de6d3d45eec11e3b59b221137e7e97),
   ("58b7", 0x72fad797bd5115eebef2f898094e0ed594e49af6a319ff6367204374e02eecd0),
   ("b58c", 0x5b29081ee25089eaf7d201212b8a05147140ceb3bc2914f28527262fdb6be445),
   ("7bef", 0x5a05027aac0af33202c3736c0146a5ca6b3b3adcabf0a30e7f68a067340c55c7),
   ("107a", 0x55725df08976cde30f7ac3f064e18d1e0c2c5d31aaa7138cffaa8c7520ab9291),
   ("4d4d", 0xd8f7f7078596fb36c1f2a2bb21b4ee53fa83f7eb6d836bdc92c8f103bd4ae931),
   ("78c3", 0x2ffee18ae3f8022e23707e9d014cded657f3ca966d06db7b23bda2283c3726f6),
   ("f1c9", 0x382091abeb3bfe50c5b5b513084844545aec6f80311b6d2e527cbe59ff288c86),
   ("c738", 0x8d7ec87b91dcc2c1c8233fd1de695e31d35961a98f3428a8f4d3671e784e3fc1),
   ("b071", 0x5e6e349c3cea87476d3df9f2650c045e4930d88fb170bd266623d1d35c8cd640),
   ("677>", 0xd13c9d0129a06e1c84d7c6147bd297eec3bb27d5fb1ee420ace19d570bcb1a0c)]

/-- The bytes of a number, the most significant first. -/
def digestOfNat (n : Nat) : Digest :=
  Vector.ofFn fun i => UInt8.ofNat (n / 256 ^ (31 - i.val))

def tokensA : List UInt32 :=
  [3754793312, 1843435399, 2137234346, 3218915616, 1964619249, 736968604, 3588452656, 2327046540,
   2195927502, 2204139216, 3676642521, 4052539420, 349109948, 2154942652, 2869783452, 633556814,
   3097395471, 3562508306, 3737023902, 357313454, 1020986352]

def tokensB : List UInt32 :=
  [3754793312, 1843435399, 2137234346, 2712534094, 995040882, 827962463, 1556377262, 433144272,
   3394807150, 845228529, 2547513970, 503851355, 2046952794, 4032655957, 133691352, 2330066479,
   2878414904, 2076737165, 2620681822, 27081937, 1020986352]

/-- BLAKE3 on those texts and on the one chunk of each prompt. -/
def blake3Image (b : List UInt8) : Digest :=
  match blake3Texts.find? fun e => decide (utf8 e.1.toList = b) with
  | some e => digestOfNat e.2
  | none =>
    if b = seqChunkBytes "m" zeroDigest tokensA then
      digestOfNat 0xb3370896db87ef445747258d369bceecc65c897a13f22c435dc256a7cbc2eec2
    else if b = seqChunkBytes "m" zeroDigest tokensB then
      digestOfNat 0x03a93a6d2fad0d80e678d6865a5a2f896b850c55ead101f6628fd95146c3ee60
    else zeroDigest

/-- The content of a message with an image and a question. -/
def imageContent (url : String) : String :=
  "[\x7b\"type\":\"image_url\",\"image_url\":\x7b\"url\":\"" ++ url ++
    "\"\x7d\x7d,\x7b\"type\":\"text\",\"text\":\"q\"\x7d]"

def imageJson (url : String) : Json :=
  .arr [.obj [("type", .str "image_url"), ("image_url", .obj [("url", .str url)])],
    .obj [("type", .str "text"), ("text", .str "q")]]

/-- `serde_json` on the two contents. -/
def imageReader : JsonReader where
  fromStr s :=
    if s = imageContent "data:a" then some (imageJson "data:a")
    else if s = imageContent "data:b" then some (imageJson "data:b")
    else none
  fromStr_empty := by decide +kernel

def imagePrompt (url : String) : List PMessage :=
  [{ role := "user", content := "", contentJson := imageContent url }]

theorem imageUrls_imagePrompt :
    imageUrls imageReader (imagePrompt "data:a") = ["data:a"] ∧
      imageUrls imageReader (imagePrompt "data:b") = ["data:b"] := by
  decide +kernel

theorem promptTokens_imagePrompt :
    promptTokens blake3Image imageReader (imagePrompt "data:a") = tokensA ∧
      promptTokens blake3Image imageReader (imagePrompt "data:b") = tokensB := by
  decide +kernel

/-- The pieces of the two prompts are told apart by the first four bytes of their digests. -/
theorem pieceBytes_imagePrompt_injOn : Set.InjOn (pieceBytes blake3Image)
    {p | p ∈ pieces (joinMessages blake3Image imageReader (imagePrompt "data:a")) ∨
      p ∈ pieces (joinMessages blake3Image imageReader (imagePrompt "data:b"))} := by
  have htexts : ((blake3Texts.map (·.1.toList)).map (pieceBytes blake3Image)).Nodup := by
    decide +kernel
  have hmem : ∀ p ∈ pieces (joinMessages blake3Image imageReader (imagePrompt "data:a")) ++
      pieces (joinMessages blake3Image imageReader (imagePrompt "data:b")),
      p ∈ blake3Texts.map (·.1.toList) := by
    decide +kernel
  intro p hp q hq heq
  exact List.inj_on_of_nodup_map htexts (hmem p (List.mem_append.mpr hp))
    (hmem q (List.mem_append.mpr hq)) heq

theorem imagePrompt_forall₂_same :
    List.Forall₂ (SameMessage imageReader) (imagePrompt "data:a") (imagePrompt "data:b") := by
  have hparts : List.Forall₂ SamePart
      [.obj [("type", .str "image_url"), ("image_url", .obj [("url", .str "data:a")])],
        .obj [("type", .str "text"), ("text", .str "q")]]
      [.obj [("type", .str "image_url"), ("image_url", .obj [("url", .str "data:b")])],
        .obj [("type", .str "text"), ("text", .str "q")]] :=
    .cons (Or.inr ⟨rfl, rfl⟩) (.cons (Or.inl rfl) .nil)
  exact .cons ⟨rfl, rfl, Or.inr ⟨_, _, rfl, rfl, hparts⟩⟩ .nil

theorem sound_imagePrompt : Sound blake3Image (hashedFor blake3Image "m" "m" tokensA tokensB) := by
  have hchunk : ∀ b ∈ seqHashed blake3Image "m" tokensA ++ seqHashed blake3Image "m" tokensB,
      blake3Image b ≠ zeroDigest ∧
        ∀ c ∈ seqHashed blake3Image "m" tokensA ++ seqHashed blake3Image "m" tokensB,
          blake3Image b = blake3Image c → b = c := by
    decide +kernel
  refine ⟨fun b hb c hc => ?_, fun b hb => (hchunk b (List.mem_append.mpr hb)).1⟩
  exact (hchunk b (List.mem_append.mpr hb)).2 c (List.mem_append.mpr hc)

/-- The two prompts of one image each: their only chunks have different digests. -/
theorem images_never_share_digests_ab :
    List.Forall₂ (SameMessage imageReader) (imagePrompt "data:a") (imagePrompt "data:b") ∧
      imageUrls imageReader (imagePrompt "data:a") ≠ imageUrls imageReader (imagePrompt "data:b") ∧
      Sound blake3Image (hashedFor blake3Image "m" "m" tokensA tokensB) ∧
      (hashSeqChunks blake3Image "m"
          (promptTokens blake3Image imageReader (imagePrompt "data:a")))[0]? ≠
        (hashSeqChunks blake3Image "m"
          (promptTokens blake3Image imageReader (imagePrompt "data:b")))[0]? := by
  obtain ⟨hurla, hurlb⟩ := imageUrls_imagePrompt
  obtain ⟨htokensa, htokensb⟩ := promptTokens_imagePrompt
  have hurls : imageUrls imageReader (imagePrompt "data:a") ≠
      imageUrls imageReader (imagePrompt "data:b") := by
    rw [hurla, hurlb]
    decide
  have hinj : ∀ u ∈ ["data:a", "data:b"], ∀ v ∈ ["data:a", "data:b"],
      blake3Image (utf8 u.toList) = blake3Image (utf8 v.toList) →
        utf8 u.toList = utf8 v.toList := by
    decide +kernel
  obtain ⟨_, _, _, hdigests⟩ := images_never_share_digests blake3Image imageReader
    (imagePrompt "data:a") (imagePrompt "data:b") imagePrompt_forall₂_same hurls
    (by
      rw [hurla, hurlb]
      rintro _ ⟨u, hu, rfl⟩ _ ⟨v, hv, rfl⟩ heq
      exact hinj u hu v hv heq)
    pieceBytes_imagePrompt_injOn
  refine ⟨imagePrompt_forall₂_same, hurls, sound_imagePrompt, ?_⟩
  rw [htokensa, htokensb] at hdigests ⊢
  rw [Ne, (hdigests "m" sound_imagePrompt).2 0 (by decide +kernel)]
  decide

end Cognitora.Router

/-
  Texts as bytes: UTF-8, lower-case hexadecimal digits and ASCII white space.

  A text is the list of its characters. Both encodings are injective; the digits of a byte
  string are twice as long as the string (`length_encodeHex`).
-/
import Cognitora.Lib.Blocks

namespace Cognitora.Lib

abbrev Bytes : Type := List UInt8

/-! ## UTF-8 -/

def utf8 (text : List Char) : Bytes :=
  (String.ofList text).toUTF8.data.toList

theorem utf8_eq_flatMap (text : List Char) : utf8 text = text.flatMap String.utf8EncodeChar := by
  have h : (String.ofList text).toUTF8 = (text.flatMap String.utf8EncodeChar).toByteArray := by
    rw [String.toUTF8_eq_toByteArray, String.toByteArray_ofList]
    rfl
  rw [utf8, h, List.data_toByteArray]

theorem utf8_append (s t : List Char) : utf8 (s ++ t) = utf8 s ++ utf8 t := by
  rw [utf8_eq_flatMap, utf8_eq_flatMap, utf8_eq_flatMap, List.flatMap_append]

theorem utf8_toList_inj {s t : String} (h : utf8 s.toList = utf8 t.toList) : s = t := by
  rw [utf8, utf8, String.ofList_toList, String.ofList_toList] at h
  exact String.toByteArray_inj.mp (ByteArray.ext (Array.toList_inj.mp h))

/-! ## Hexadecimal digits -/

/-- Two digits a byte, the high one first. -/
def encodeHex (bytes : Bytes) : List Char :=
  bytes.flatMap fun b => [Nat.digitChar (b.toNat / 16), Nat.digitChar (b.toNat % 16)]

theorem length_encodeHex (bytes : Bytes) : (encodeHex bytes).length = 2 * bytes.length :=
  length_flatMap (n := 2) (fun _ => rfl) bytes

theorem digitChar_inj : ∀ m n : Fin 16, Nat.digitChar m = Nat.digitChar n → m = n := by
  decide

theorem hexPair_inj {b c : UInt8}
    (h : [Nat.digitChar (b.toNat / 16), Nat.digitChar (b.toNat % 16)] =
      [Nat.digitChar (c.toNat / 16), Nat.digitChar (c.toNat % 16)]) : b = c := by
  have hb := b.toNat_lt
  have hc := c.toNat_lt
  rw [List.cons.injEq, List.cons.injEq] at h
  have h1 := congrArg Fin.val (digitChar_inj ⟨b.toNat / 16, by omega⟩ ⟨c.toNat / 16, by omega⟩ h.1)
  have h2 := congrArg Fin.val
    (digitChar_inj ⟨b.toNat % 16, by omega⟩ ⟨c.toNat % 16, by omega⟩ h.2.1)
  dsimp only at h1 h2
  rw [← UInt8.toNat_inj]
  omega

theorem encodeHex_inj {s t : Bytes} (h : encodeHex s = encodeHex t) : s = t :=
  flatMap_inj (n := 2) (by decide) (fun _ => rfl) (fun _ _ => hexPair_inj) h

theorem forall_mem_encodeHex {P : Char → Prop} (hP : ∀ n : Fin 16, P (Nat.digitChar n))
    (bytes : Bytes) : ∀ c ∈ encodeHex bytes, P c := by
  intro c h
  obtain ⟨b, _, hc⟩ := List.mem_flatMap.mp h
  have hb := b.toNat_lt
  rcases List.mem_cons.mp hc with rfl | hc
  · exact hP ⟨b.toNat / 16, by omega⟩
  · rw [List.mem_singleton.mp hc]
    exact hP ⟨b.toNat % 16, by omega⟩

/-! ## White space -/

/-- The codes of the white space among ASCII characters. -/
def isAsciiSpace (code : Nat) : Bool :=
  (9 ≤ code && code ≤ 13) || code == 32

end Cognitora.Lib

import Credence.Proofs.Text
import Credence.Constant
import Mathlib.Data.List.Basic
/-!
# Texts in and out of their wrap

A text that could not stand bare is kept in base64 behind a mark.  Decoding undoes encoding byte by byte and the bytes of
a text are valid UTF-8, so the text of a constant that was made from a text is that text (`Constant.text_ofText`).
-/
namespace Credence

namespace Text
namespace Base64

theorem value?_digit {n : Nat} (h : n < 64) : value? (digit n) = some n := by
  have key : ∀ n : Fin 64, value? (digit n.val) = some n.val := by decide
  exact key ⟨n, h⟩

theorem mapM_value?_map_digit : ∀ {ns : List Nat}, (∀ n ∈ ns, n < 64) → (ns.map digit).mapM value? = some ns
  | [], _ => rfl
  | n :: ns, h => by
    obtain ⟨hn, hns⟩ := List.forall_mem_cons.1 h
    rw [List.map_cons, List.mapM_cons, value?_digit hn, mapM_value?_map_digit hns]
    rfl

/-- The six-bit values of some bytes. -/
def sextets : List UInt8 → List Nat
  | a :: b :: c :: rest =>
    let n := a.toNat * 65536 + b.toNat * 256 + c.toNat
    n / 262144 :: n / 4096 % 64 :: n / 64 % 64 :: n % 64 :: sextets rest
  | [a, b] =>
    let n := a.toNat * 1024 + b.toNat * 4
    [n / 4096, n / 64 % 64, n % 64]
  | [a] =>
    let n := a.toNat * 16
    [n / 64, n % 64]
  | [] => []

theorem encode_eq : ∀ bs : List UInt8, encode bs = (sextets bs).map digit
  | a :: b :: c :: rest => by
    rw [encode, sextets, encode_eq rest]
    rfl
  | [_, _] => rfl
  | [_] => rfl
  | [] => rfl

theorem sextets_lt : ∀ (bs : List UInt8), ∀ n ∈ sextets bs, n < 64
  | a :: b :: c :: rest => by
    have ha := a.toNat_lt
    have hb := b.toNat_lt
    have hc := c.toNat_lt
    simp only [sextets, List.forall_mem_cons]
    exact ⟨by omega, by omega, by omega, by omega, sextets_lt rest⟩
  | [a, b] => by
    have ha := a.toNat_lt
    have hb := b.toNat_lt
    simp only [sextets, List.forall_mem_cons]
    exact ⟨by omega, by omega, by omega, fun _ h => nomatch h⟩
  | [a] => by
    have ha := a.toNat_lt
    simp only [sextets, List.forall_mem_cons]
    exact ⟨by omega, by omega, fun _ h => nomatch h⟩
  | [] => fun _ h => nomatch h

/-- **The six-bit values of some bytes join to the bytes.** -/
theorem join_sextets : ∀ bs : List UInt8, join (sextets bs) = some bs
  | a :: b :: c :: rest => by
    have ha := a.toNat_lt
    have hb := b.toNat_lt
    have hc := c.toNat_lt
    have hsum : (a.toNat * 65536 + b.toNat * 256 + c.toNat) / 262144 * 262144 +
        (a.toNat * 65536 + b.toNat * 256 + c.toNat) / 4096 % 64 * 4096 +
        (a.toNat * 65536 + b.toNat * 256 + c.toNat) / 64 % 64 * 64 +
        (a.toNat * 65536 + b.toNat * 256 + c.toNat) % 64 = a.toNat * 65536 + b.toNat * 256 + c.toNat := by omega
    have h1 : (a.toNat * 65536 + b.toNat * 256 + c.toNat) / 65536 = a.toNat := by omega
    have h2 : (a.toNat * 65536 + b.toNat * 256 + c.toNat) / 256 % 256 = b.toNat := by omega
    have h3 : (a.toNat * 65536 + b.toNat * 256 + c.toNat) % 256 = c.toNat := by omega
    rw [sextets, join, join_sextets rest]
    simp only [hsum, h1, h2, h3, UInt8.ofNat_toNat, Option.map_some]
  | [a, b] => by
    have ha := a.toNat_lt
    have hb := b.toNat_lt
    have hsum : (a.toNat * 1024 + b.toNat * 4) / 4096 * 4096 + (a.toNat * 1024 + b.toNat * 4) / 64 % 64 * 64 +
        (a.toNat * 1024 + b.toNat * 4) % 64 = a.toNat * 1024 + b.toNat * 4 := by omega
    have h0 : (a.toNat * 1024 + b.toNat * 4) % 4 = 0 := by omega
    have h1 : (a.toNat * 1024 + b.toNat * 4) / 1024 = a.toNat := by omega
    have h2 : (a.toNat * 1024 + b.toNat * 4) / 4 % 256 = b.toNat := by omega
    rw [sextets, join]
    simp only [hsum, h0, h1, h2, UInt8.ofNat_toNat, if_true]
  | [a] => by
    have ha := a.toNat_lt
    have hsum : a.toNat * 16 / 64 * 64 + a.toNat * 16 % 64 = a.toNat * 16 := by omega
    have h0 : a.toNat * 16 % 16 = 0 := by omega
    have h1 : a.toNat * 16 / 16 = a.toNat := by omega
    rw [sextets, join]
    simp only [hsum, h0, h1, UInt8.ofNat_toNat, if_true]
  | [] => rfl

theorem decode?_encode (bs : List UInt8) : decode? (encode bs) = some bs := by
  rw [decode?, encode_eq, mapM_value?_map_digit (sextets_lt bs)]
  exact join_sextets bs

/-! ## Bytes of a text -/

theorem toList_loop (bs : ByteArray) (i : Nat) (r : List UInt8) :
    ByteArray.toList.loop bs i r = r.reverse ++ bs.data.toList.drop i := by
  rw [ByteArray.toList.loop]
  by_cases hi : i < bs.size
  · rw [if_pos hi, toList_loop bs (i + 1)]
    have hget : bs.data.toList.drop i = bs.get! i :: bs.data.toList.drop (i + 1) := by
      have hlen : i < bs.data.toList.length := hi
      rw [List.drop_eq_getElem_cons hlen]
      refine congrArg (· :: _) ?_
      show bs.data.toList[i] = bs.data[i]!
      rw [getElem!_pos bs.data i hi]
      rfl
    rw [hget, List.reverse_cons, List.append_assoc]
    rfl
  · have hlen : bs.data.toList.length ≤ i := Nat.le_of_not_lt hi
    rw [if_neg hi, List.drop_eq_nil_of_le hlen, List.append_nil]
termination_by bs.size - i

theorem mk_toList (bs : ByteArray) : (⟨bs.toList.toArray⟩ : ByteArray) = bs := by
  rw [ByteArray.toList, toList_loop]
  rfl

/-- **A text is read back from its base64.** -/
theorem decodeText?_encodeText (s : String) : decodeText? (encodeText s) = some s := by
  rw [decodeText?, encodeText, String.toList_ofList, decode?_encode]
  show String.fromUTF8? ⟨s.toUTF8.toList.toArray⟩ = some s
  rw [mk_toList, String.fromUTF8?]
  exact dif_pos s.isValidUTF8

end Base64
end Text

/-- **A constant made from a text stands for that text.** -/
theorem Constant.text_ofText (s : String) : (ofText s).text = s := by
  unfold ofText
  by_cases hbare : isBare s = true
  · rw [if_pos hbare]
    have hmark : Text.startsWith wrapMark s = false := by
      by_contra hc
      rw [isBare, if_pos (by simpa using hc)] at hbare
      cases hbare
    rw [text, Text.after?_eq_none hmark]
    rfl
  · rw [if_neg hbare, text, Text.after?_append]
    show (Text.Base64.decodeText? (Text.Base64.encodeText s)).getD _ = s
    rw [Text.Base64.decodeText?_encodeText]
    rfl

end Credence

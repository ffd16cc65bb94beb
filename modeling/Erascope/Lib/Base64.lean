import Mathlib.Data.String.Basic
import Mathlib.Tactic

/-!
# Base64

Bytes as text over the 64 characters of the standard alphabet, four characters for three bytes and
`=` for what is missing at the end. Decoding reads back what was encoded (`decode_encode`), and a
text that decodes is longer than its bytes (`length_decode_lt`).
-/

namespace Erascope.Base64

/-- The standard alphabet. -/
def alphabet : List Char :=
  "ABCDEFGHIJKLMNOPQRSTUVWXYZabcdefghijklmnopqrstuvwxyz0123456789+/".toList

/-- The character of six bits. -/
def digit (n : ℕ) : Char := alphabet.getD n 'A'

/-- The six bits of a character. -/
def value (c : Char) : Option ℕ := alphabet.findIdx? (· = c)

def encode : List UInt8 → List Char
  | [] => []
  | [a] => [digit (a.toNat / 4), digit (a.toNat % 4 * 16), '=', '=']
  | [a, b] =>
    [digit (a.toNat / 4), digit (a.toNat % 4 * 16 + b.toNat / 16), digit (b.toNat % 16 * 4), '=']
  | a :: b :: c :: rest =>
    digit (a.toNat / 4) :: digit (a.toNat % 4 * 16 + b.toNat / 16) ::
      digit (b.toNat % 16 * 4 + c.toNat / 64) :: digit (c.toNat % 64) :: encode rest

/-- The bytes of the last four characters. -/
def decodeLast (w x y z : Char) : Option (List UInt8) := do
  let p ← value w
  let q ← value x
  if y = '=' ∧ z = '=' then return [.ofNat (p * 4 + q / 16)]
  let r ← value y
  if z = '=' then return [.ofNat (p * 4 + q / 16), .ofNat (q % 16 * 16 + r / 4)]
  let s ← value z
  return [.ofNat (p * 4 + q / 16), .ofNat (q % 16 * 16 + r / 4), .ofNat (r % 4 * 64 + s)]

/-- The bytes of four characters without padding. -/
def decodeGroup (w x y z : Char) : Option (List UInt8) := do
  let p ← value w
  let q ← value x
  let r ← value y
  let s ← value z
  return [.ofNat (p * 4 + q / 16), .ofNat (q % 16 * 16 + r / 4), .ofNat (r % 4 * 64 + s)]

def decode : List Char → Option (List UInt8)
  | [] => some []
  | [w, x, y, z] => decodeLast w x y z
  | w :: x :: y :: z :: rest => do
    let bytes ← decodeGroup w x y z
    let bytes' ← decode rest
    return bytes ++ bytes'
  | _ => none

/-! ## Reading back -/

theorem value_digit {n : ℕ} (h : n < 64) : value (digit n) = some n := by
  have hall : ∀ i : Fin 64, value (digit i) = some i.val := by decide +kernel
  exact hall ⟨n, h⟩

theorem digit_ne_pad {n : ℕ} (h : n < 64) : digit n ≠ '=' := by
  have hall : ∀ i : Fin 64, digit i ≠ '=' := by decide +kernel
  exact hall ⟨n, h⟩

theorem ofNat_of_toNat_eq {a : UInt8} {n : ℕ} (h : n = a.toNat) : UInt8.ofNat n = a := by
  subst h
  exact UInt8.ofNat_toNat

theorem decodeLast_one (a : UInt8) :
    decodeLast (digit (a.toNat / 4)) (digit (a.toNat % 4 * 16)) '=' '=' = some [a] := by
  have ha := a.toNat_lt
  rw [decodeLast, value_digit (by omega), value_digit (by omega)]
  show some [UInt8.ofNat (a.toNat / 4 * 4 + a.toNat % 4 * 16 / 16)] = _
  rw [ofNat_of_toNat_eq (a := a) (by omega)]

theorem decodeLast_two (a b : UInt8) :
    decodeLast (digit (a.toNat / 4)) (digit (a.toNat % 4 * 16 + b.toNat / 16))
      (digit (b.toNat % 16 * 4)) '=' = some [a, b] := by
  have ha := a.toNat_lt
  have hb := b.toNat_lt
  have hpad : digit (b.toNat % 16 * 4) ≠ '=' := digit_ne_pad (by omega)
  rw [decodeLast, value_digit (by omega), value_digit (by omega), value_digit (by omega)]
  simp only [Option.bind_eq_bind, Option.bind_some, hpad, false_and, if_false, if_true,
    Option.pure_def]
  rw [ofNat_of_toNat_eq (a := a) (by omega), ofNat_of_toNat_eq (a := b) (by omega)]

theorem decodeGroup_three (a b c : UInt8) :
    decodeGroup (digit (a.toNat / 4)) (digit (a.toNat % 4 * 16 + b.toNat / 16))
      (digit (b.toNat % 16 * 4 + c.toNat / 64)) (digit (c.toNat % 64)) = some [a, b, c] := by
  have ha := a.toNat_lt
  have hb := b.toNat_lt
  have hc := c.toNat_lt
  rw [decodeGroup, value_digit (by omega), value_digit (by omega), value_digit (by omega),
    value_digit (by omega)]
  simp only [Option.bind_eq_bind, Option.bind_some, Option.pure_def]
  rw [ofNat_of_toNat_eq (a := a) (by omega), ofNat_of_toNat_eq (a := b) (by omega),
    ofNat_of_toNat_eq (a := c) (by omega)]

/-- Without padding the last group is like the others. -/
theorem decodeLast_eq_decodeGroup {w x y z : Char} (hz : z ≠ '=') :
    decodeLast w x y z = decodeGroup w x y z := by
  have hpad : ¬ (y = '=' ∧ z = '=') := fun h => hz h.2
  simp only [decodeLast, decodeGroup, if_neg hpad, if_neg hz]

theorem decode_encode (bytes : List UInt8) : decode (encode bytes) = some bytes := by
  induction bytes using encode.induct with
  | case1 => rfl
  | case2 a => exact decodeLast_one a
  | case3 a b => exact decodeLast_two a b
  | case4 a b c rest ih =>
    have hc := c.toNat_lt
    cases hrest : encode rest with
    | nil =>
      rw [hrest] at ih
      obtain rfl : rest = [] := (Option.some.inj ih).symm
      rw [encode, hrest]
      exact (decodeLast_eq_decodeGroup (digit_ne_pad (by omega))).trans (decodeGroup_three a b c)
    | cons d ds =>
      rw [encode, hrest, decode, decodeGroup_three, ← hrest, ih]
      · rfl
      · simp

/-! ## Sizes -/

theorem length_decodeGroup {w x y z : Char} {bytes : List UInt8}
    (h : decodeGroup w x y z = some bytes) : bytes.length = 3 := by
  simp only [decodeGroup, Option.bind_eq_bind, Option.bind_eq_some_iff] at h
  obtain ⟨p, -, q, -, r, -, s, -, h⟩ := h
  rw [← Option.some.inj h]
  rfl

theorem length_decodeLast {w x y z : Char} {bytes : List UInt8}
    (h : decodeLast w x y z = some bytes) : bytes.length ≤ 3 := by
  simp only [decodeLast, Option.bind_eq_bind, Option.bind_eq_some_iff] at h
  obtain ⟨p, -, q, -, h⟩ := h
  split at h
  · rw [← Option.some.inj h]
    simp
  · obtain ⟨r, -, h⟩ := Option.bind_eq_some_iff.mp h
    split at h
    · rw [← Option.some.inj h]
      simp
    · obtain ⟨s, -, h⟩ := Option.bind_eq_some_iff.mp h
      rw [← Option.some.inj h]
      simp

/-- A text that decodes is longer than its bytes. -/
theorem length_decode_lt {text : List Char} {bytes : List UInt8} (h : decode text = some bytes)
    (hne : text ≠ []) : bytes.length < text.length := by
  induction text using decode.induct generalizing bytes with
  | case1 => exact absurd rfl hne
  | case2 w x y z =>
    have := length_decodeLast h
    simp only [List.length_cons, List.length_nil]
    omega
  | case3 w x y z rest hrest ih =>
    rw [decode] at h
    · simp only [Option.bind_eq_bind, Option.bind_eq_some_iff] at h
      obtain ⟨group, hgroup, bytes', hdecode, h⟩ := h
      have hlen := length_decodeGroup hgroup
      have hlt := ih hdecode (fun hnil => hrest hnil)
      rw [← Option.some.inj h, List.length_append]
      simp only [List.length_cons]
      omega
    · exact hrest
  | case4 text h₁ h₂ h₃ =>
    rw [decode] at h
    · cases h
    all_goals assumption

end Erascope.Base64

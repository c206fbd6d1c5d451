import Mathlib.Data.List.Basic
import Mathlib.Tactic

/-!
# LEB128 numbers

A number as bytes of seven bits each, lowest first; every byte but the last has its high
bit set. A reader of such numbers has to know two things: where a number ends
(`takeNumber`) and what it is (`value`, `signedValue`).

Main results:

* `takeNumber_append` — a number that ends is read whole, and what follows is left alone;
* `value_encode`      — a number is read back as it was written;
* `encode_ends`, `encodeSigned_ends` — what is written ends.
-/

namespace TcfAgent.Lib.Leb128

/-- The number that the bytes spell. -/
def value : List UInt8 → Nat
  | [] => 0
  | b :: bs => b.toNat % 128 + 128 * value bs

/-- The number that the bytes spell when bit 6 of the last one is the sign. -/
def signedValue : List UInt8 → Int
  | [] => 0
  | [b] => if b.toNat % 128 < 64 then (b.toNat % 128 : Nat) else (b.toNat % 128 : Nat) - (128 : Int)
  | b :: bs => (b.toNat % 128 : Nat) + 128 * signedValue bs

/-- The bytes are one number: the last of them, and no other, has its high bit clear. -/
def Ends : List UInt8 → Prop
  | [] => False
  | [b] => b.toNat < 128
  | b :: bs => 128 ≤ b.toNat ∧ Ends bs

instance decidableEnds : (bs : List UInt8) → Decidable (Ends bs)
  | [] => inferInstanceAs (Decidable False)
  | [b] => inferInstanceAs (Decidable (b.toNat < 128))
  | b :: c :: cs =>
    have := decidableEnds (c :: cs)
    inferInstanceAs (Decidable (128 ≤ b.toNat ∧ Ends (c :: cs)))

/-- Split off the bytes of the first number. -/
def takeNumber : List UInt8 → Option (List UInt8 × List UInt8)
  | [] => none
  | b :: bs =>
    if b.toNat < 128 then some ([b], bs)
    else (takeNumber bs).map fun p => (b :: p.1, p.2)

/-- At most `fuel + 1` bytes; `encode` gives as many as can be needed. -/
def encodeAux : (fuel : Nat) → Nat → List UInt8
  | 0, n => [UInt8.ofNat (n % 128)]
  | fuel + 1, n =>
    if n / 128 = 0 then [UInt8.ofNat (n % 128)]
    else UInt8.ofNat (n % 128 + 128) :: encodeAux fuel (n / 128)

/-- The shortest bytes that spell `n`. -/
def encode (n : Nat) : List UInt8 := encodeAux n n

/-- `encodeAux` for signed numbers: it stops when bit 6 is the sign. -/
def encodeSignedAux : (fuel : Nat) → Int → List UInt8
  | 0, x => [UInt8.ofNat (x % 128).toNat]
  | fuel + 1, x =>
    if (x / 128 = 0 ∧ x % 128 < 64) ∨ (x / 128 = -1 ∧ 64 ≤ x % 128) then
      [UInt8.ofNat (x % 128).toNat]
    else UInt8.ofNat ((x % 128).toNat + 128) :: encodeSignedAux fuel (x / 128)

/-- The shortest bytes that spell `x` with its sign. -/
def encodeSigned (x : Int) : List UInt8 := encodeSignedAux x.natAbs x

variable {bs : List UInt8}

theorem ends_cons {b : UInt8} (hb : 128 ≤ b.toNat) (h : Ends bs) :
    Ends (b :: bs) := by
  cases bs with
  | nil => exact absurd h (by simp [Ends])
  | cons c cs => exact ⟨hb, h⟩

theorem takeNumber_append {raw : List UInt8} (h : Ends raw) (rest : List UInt8) :
    takeNumber (raw ++ rest) = some (raw, rest) := by
  induction raw with
  | nil => exact absurd h (by simp [Ends])
  | cons b bs ih =>
    cases bs with
    | nil =>
      have hb : b.toNat < 128 := h
      simp [takeNumber, hb]
    | cons c cs =>
      have hb : ¬ b.toNat < 128 := by have := h.1; omega
      rw [List.cons_append, takeNumber, if_neg hb, ih h.2]
      rfl

/-- What is split off is a number, in front of what is left. -/
theorem takeNumber_eq_some {bytes raw rest : List UInt8}
    (h : takeNumber bytes = some (raw, rest)) : bytes = raw ++ rest ∧ Ends raw := by
  induction bytes generalizing raw rest with
  | nil => simp [takeNumber] at h
  | cons b bs ih =>
    unfold takeNumber at h
    split at h
    · rename_i hb
      cases h
      exact ⟨rfl, hb⟩
    · rename_i hb
      obtain ⟨⟨raw', rest'⟩, hTake, hEq⟩ := Option.map_eq_some_iff.mp h
      cases hEq
      obtain ⟨rfl, hEnds⟩ := ih hTake
      exact ⟨rfl, ends_cons (by omega) hEnds⟩

theorem encodeAux_ends (fuel n : Nat) : Ends (encodeAux fuel n) := by
  induction fuel generalizing n with
  | zero =>
    show (UInt8.ofNat (n % 128)).toNat < 128
    simp
    omega
  | succ fuel ih =>
    unfold encodeAux
    split
    · show (UInt8.ofNat (n % 128)).toNat < 128
      simp
      omega
    · exact ends_cons (by simp; omega) (ih _)

/-- What is written ends. -/
theorem encode_ends (n : Nat) : Ends (encode n) := encodeAux_ends n n

theorem encodeSignedAux_ends (fuel : Nat) (x : Int) : Ends (encodeSignedAux fuel x) := by
  induction fuel generalizing x with
  | zero =>
    show (UInt8.ofNat (x % 128).toNat).toNat < 128
    simp
    omega
  | succ fuel ih =>
    unfold encodeSignedAux
    split
    · show (UInt8.ofNat (x % 128).toNat).toNat < 128
      simp
      omega
    · exact ends_cons (by simp; omega) (ih _)

/-- What is written with a sign ends. -/
theorem encodeSigned_ends (x : Int) : Ends (encodeSigned x) := encodeSignedAux_ends _ x

theorem value_encodeAux {fuel n : Nat} (h : n ≤ fuel) : value (encodeAux fuel n) = n := by
  induction fuel generalizing n with
  | zero =>
    obtain rfl : n = 0 := by omega
    rfl
  | succ fuel ih =>
    unfold encodeAux
    split
    · have : n % 128 % 256 % 128 = n := by omega
      simpa [value] using this
    · have hRest : value (encodeAux fuel (n / 128)) = n / 128 := ih (by omega)
      have : (n % 128 + 128) % 256 % 128 + 128 * (n / 128) = n := by omega
      simpa [value, hRest] using this

/-- A number is read back as it was written. -/
theorem value_encode (n : Nat) : value (encode n) = n := value_encodeAux le_rfl

theorem signedValue_cons (b : UInt8) (h : bs ≠ []) :
    signedValue (b :: bs) = (b.toNat % 128 : Nat) + 128 * signedValue bs := by
  cases bs with
  | nil => exact absurd rfl h
  | cons c cs => rfl

theorem ends_ne_nil (h : Ends bs) : bs ≠ [] := by
  rintro rfl
  exact h

theorem signedValue_last (x : Int) (hx : -64 ≤ x) (hx' : x < 64) :
    signedValue [UInt8.ofNat (x % 128).toNat] = x := by
  have hByte : (UInt8.ofNat (x % 128).toNat).toNat % 128 = (x % 128).toNat := by
    simp
    omega
  have hNonneg : ((x % 128).toNat : Int) = x % 128 := Int.toNat_of_nonneg (by omega)
  rw [signedValue, hByte, hNonneg]
  split <;> omega

theorem signedValue_encodeSignedAux {fuel : Nat} {x : Int} (h : x.natAbs ≤ fuel) :
    signedValue (encodeSignedAux fuel x) = x := by
  induction fuel generalizing x with
  | zero =>
    obtain rfl : x = 0 := by omega
    rfl
  | succ fuel ih =>
    unfold encodeSignedAux
    split
    · exact signedValue_last x (by omega) (by omega)
    · rename_i hMore
      rw [signedValue_cons _ (ends_ne_nil (encodeSignedAux_ends _ _)), ih (by omega)]
      have hByte : (UInt8.ofNat ((x % 128).toNat + 128)).toNat % 128 = (x % 128).toNat := by
        simp
        omega
      rw [hByte]
      omega

/-- A signed number is read back as it was written. -/
theorem signedValue_encodeSigned (x : Int) : signedValue (encodeSigned x) = x :=
  signedValue_encodeSignedAux le_rfl

end TcfAgent.Lib.Leb128

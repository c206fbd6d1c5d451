import TcfAgent.Services.Vm

/-!
# Numbers in the code that is generated

`add_uleb128` and `add_sleb128` of `services/dwarfecomp.c` put a number into the code that the
virtual machine reads with `read_u8leb128` and `read_i8leb128`. The machine is another file, with
its own loops, shifts and masks.

Main results:

* `addUleb128_eq`, `addSleb128_eq` — what is added is the shortest number that means the value;
* `leb128_agree` — the machine reads the value that was added, and stops behind it.
-/

namespace TcfAgent.DwarfNumbers

open TcfAgent.Lib TcfAgent.Vm

/-! ## The loops -/

/-- `add` -/
def add (buf : List UInt8) (n : UInt8) : List UInt8 := buf ++ [n]

/-- `(U1_T)(x & 0x7Fu)` -/
def lowByte (x : BitVec 64) : UInt8 := UInt8.ofBitVec ((x &&& 0x7f).setWidth 8)

variable (x : BitVec 64)

theorem toNat_lowByte : (lowByte x).toNat = x.toNat % 128 := by
  have hMask : (x &&& 0x7f).toNat = x.toNat % 128 := by
    rw [BitVec.toNat_and]
    exact Nat.and_two_pow_sub_one_eq_mod x.toNat 7
  show ((x &&& 0x7f).setWidth 8).toNat = _
  rw [BitVec.toNat_setWidth, hMask]
  omega

theorem shift_eq_zero : x >>> 7 = 0 ↔ x.toNat / 128 = 0 := by
  rw [← BitVec.toNat_inj, BitVec.toNat_ushiftRight, Nat.shiftRight_eq_div_pow]
  rfl

theorem toInt_shift : (x.sshiftRight 7).toInt = x.toInt / 128 := by
  rw [BitVec.toInt_sshiftRight, Int.shiftRight_eq_div_pow]
  rfl

theorem sign_iff (n : UInt8) : n &&& 0x40 = 0 ↔ n.toNat % 128 < 64 := by
  have h : ∀ n : Fin 256, UInt8.ofNat n &&& 0x40 = 0 ↔ (UInt8.ofNat n).toNat % 128 < 64 := by
    decide +kernel
  simpa using h ⟨n.toNat, n.toNat_lt⟩

theorem toInt_emod : x.toInt % 128 = (x.toNat % 128 : Nat) := by
  rw [BitVec.toInt_eq_toNat_cond]
  split <;> omega

/-- When `add_sleb128` is done: nothing but the sign is left, and bit 6 says it. -/
theorem signed_last :
    (x.sshiftRight 7 = 0 ∧ lowByte x &&& 0x40 = 0 ∨
      x.sshiftRight 7 = -1 ∧ lowByte x &&& 0x40 ≠ 0) ↔
      (x.toInt / 128 = 0 ∧ x.toInt % 128 < 64 ∨ x.toInt / 128 = -1 ∧ 64 ≤ x.toInt % 128) := by
  have hZero : x.sshiftRight 7 = 0 ↔ x.toInt / 128 = 0 := by
    rw [← toInt_shift, ← BitVec.toInt_inj]
    rfl
  have hMinus : x.sshiftRight 7 = -1 ↔ x.toInt / 128 = -1 := by
    rw [← toInt_shift, ← BitVec.toInt_inj]
    rfl
  have hSign : lowByte x &&& 0x40 = 0 ↔ x.toInt % 128 < 64 := by
    rw [sign_iff, toNat_lowByte, toInt_emod]
    omega
  rw [hZero, hMinus, ne_eq, hSign, not_lt]

/-- `add_uleb128` -/
def addUleb128 (x : BitVec 64) (buf : List UInt8) : List UInt8 :=
  let n := lowByte x
  if x >>> 7 = 0 then add buf n else addUleb128 (x >>> 7) (add buf (n ||| 0x80))
termination_by x.toNat
decreasing_by
  rename_i h
  rw [shift_eq_zero] at h
  rw [BitVec.toNat_ushiftRight, Nat.shiftRight_eq_div_pow]
  omega

/-- `add_sleb128`: the shift is that of a signed number. -/
def addSleb128 (x : BitVec 64) (buf : List UInt8) : List UInt8 :=
  let n := lowByte x
  if x.sshiftRight 7 = 0 ∧ n &&& 0x40 = 0 ∨ x.sshiftRight 7 = -1 ∧ n &&& 0x40 ≠ 0 then add buf n
  else addSleb128 (x.sshiftRight 7) (add buf (n ||| 0x80))
termination_by x.toInt.natAbs
decreasing_by
  rename_i h
  have hMore := (signed_last x).not.mp h
  rw [toInt_shift]
  omega

/-! ## What they add -/

theorem lowByte_eq : lowByte x = UInt8.ofNat (x.toNat % 128) := by
  apply UInt8.toNat_inj.mp
  rw [toNat_lowByte, UInt8.toNat_ofNat']
  omega

/-- A byte with another behind it. -/
theorem lowByte_more :
    lowByte x ||| 0x80 = UInt8.ofNat (x.toNat % 128 + 128) := by
  apply UInt8.toNat_inj.mp
  have hLow : (lowByte x).toNat < 2 ^ 7 := by
    rw [toNat_lowByte]
    exact Nat.mod_lt _ (by decide)
  have hOr := Nat.two_pow_add_eq_or_of_lt hLow 1
  rw [UInt8.toNat_or, Nat.or_comm, UInt8.toNat_ofNat', ← toNat_lowByte]
  show 2 ^ 7 * 1 ||| (lowByte x).toNat = _
  rw [← hOr]
  omega

theorem addUleb128_aux (fuel : Nat) (x : BitVec 64) (buf : List UInt8) (h : x.toNat ≤ fuel) :
    addUleb128 x buf = buf ++ Leb128.encodeAux fuel x.toNat := by
  induction fuel generalizing x buf with
  | zero =>
    have hZero : x >>> 7 = 0 := (shift_eq_zero x).mpr (by omega)
    rw [addUleb128, if_pos hZero, add, lowByte_eq, Leb128.encodeAux]
  | succ fuel ih =>
    rw [addUleb128, Leb128.encodeAux]
    by_cases hLast : x.toNat / 128 = 0
    · rw [if_pos ((shift_eq_zero x).mpr hLast), if_pos hLast, add, lowByte_eq]
    · have hShift : (x >>> 7).toNat = x.toNat / 128 := by
        rw [BitVec.toNat_ushiftRight, Nat.shiftRight_eq_div_pow]
      rw [if_neg ((shift_eq_zero x).not.mpr hLast), if_neg hLast, ih _ _ (by omega), hShift, add,
        lowByte_more, List.append_assoc, List.singleton_append]

theorem addUleb128_eq (buf : List UInt8) :
    addUleb128 x buf = buf ++ Leb128.encode x.toNat :=
  addUleb128_aux x.toNat x buf le_rfl

theorem addSleb128_aux (fuel : Nat) (x : BitVec 64) (buf : List UInt8) (h : x.toInt.natAbs ≤ fuel) :
    addSleb128 x buf = buf ++ Leb128.encodeSignedAux fuel x.toInt := by
  have hByte : (x.toInt % 128).toNat = x.toNat % 128 := by
    rw [toInt_emod]
    rfl
  induction fuel generalizing x buf with
  | zero =>
    have hLast := (signed_last x).mpr (by omega)
    rw [addSleb128, if_pos hLast, add, lowByte_eq, Leb128.encodeSignedAux, hByte]
  | succ fuel ih =>
    rw [addSleb128, Leb128.encodeSignedAux, hByte]
    by_cases hLast : x.toInt / 128 = 0 ∧ x.toInt % 128 < 64 ∨
        x.toInt / 128 = -1 ∧ 64 ≤ x.toInt % 128
    · rw [if_pos ((signed_last x).mpr hLast), if_pos hLast, add, lowByte_eq]
    · have hShift := toInt_shift x
      have hRest : (x.sshiftRight 7).toInt % 128 = ((x.sshiftRight 7).toNat % 128 : Nat) :=
        toInt_emod _
      rw [if_neg ((signed_last x).not.mpr hLast), if_neg hLast, ih _ _ (by omega) (by omega),
        hShift, add, lowByte_more, List.append_assoc, List.singleton_append]

theorem addSleb128_eq (buf : List UInt8) :
    addSleb128 x buf = buf ++ Leb128.encodeSigned x.toInt :=
  addSleb128_aux x.toInt.natAbs x buf le_rfl

/-! ## What the machine reads -/

theorem reads_unsigned : Reads readU8leb128 (Leb128.encode x.toNat) x := by
  have hReads := reads_uleb (invDwarf "Invalid command") 64 (Leb128.encode_ends x.toNat)
  rwa [ulebWord_eq, Leb128.value_encode, BitVec.ofNat_toNat, BitVec.setWidth_eq] at hReads

theorem reads_signed : Reads readI8leb128 (Leb128.encodeSigned x.toInt) x := by
  have hEnds := Leb128.encodeSigned_ends x.toInt
  have hReads := reads_sleb (invDwarf "Invalid command") 64 hEnds
  rwa [slebWord_eq 64 (Leb128.ends_ne_nil hEnds), Leb128.signedValue_encodeSigned,
    BitVec.ofInt_toInt] at hReads

/-- Each function adds bytes, the same wherever they go, which are read as the number again,
whatever is around them. -/
theorem leb128_agree (x y : BitVec 64) :
    (∃ bytes, (∀ buf, addUleb128 x buf = buf ++ bytes) ∧ Reads readU8leb128 bytes x) ∧
    ∃ bytes, (∀ buf, addSleb128 y buf = buf ++ bytes) ∧ Reads readI8leb128 bytes y :=
  ⟨⟨_, addUleb128_eq x, reads_unsigned x⟩, _, addSleb128_eq y, reads_signed y⟩

end TcfAgent.DwarfNumbers

import Mathlib.Data.List.Basic
import Mathlib.Tactic
import TcfAgent.Lib.Leb128

/-!
# Readers of bytes

A reader takes bytes from a position of a sequence on. `Reads p bytes a` says what a reader
does apart from where it does it: it takes exactly these bytes and gives `a`, whatever comes
before and after them. Readers that are put one after another read the bytes one after
another (`Reads.bind`).

`uleb` and `sleb` are the loops that put a LEB128 number together, in a word of `w` bits.
-/

namespace TcfAgent.Lib

/-- Bytes, and the position of the next one to read. -/
structure Cursor where
  data : List UInt8
  pos : Nat
deriving DecidableEq, Repr

def Cursor.rest (c : Cursor) : List UInt8 := c.data.drop c.pos

def Cursor.skip (c : Cursor) (n : Nat) : Cursor := { c with pos := c.pos + n }

@[simp] theorem Cursor.rest_skip (c : Cursor) (n : Nat) :
    (c.skip n).rest = c.rest.drop n := by
  simp [Cursor.rest, Cursor.skip, List.drop_drop]

@[simp] theorem Cursor.skip_skip (c : Cursor) (n k : Nat) :
    (c.skip n).skip k = c.skip (n + k) := by
  simp [Cursor.skip, Nat.add_assoc]

abbrev Reader (ε α : Type) := StateT Cursor (Except ε) α

variable {ε α β : Type}

/-- The next byte; `eof` is raised behind the last one. -/
def readByte (eof : ε) : Reader ε UInt8 := fun c =>
  match c.data[c.pos]? with
  | some b => .ok (b, c.skip 1)
  | none => .error eof

/-- `p` reads these bytes and gives `a`, wherever they are. -/
def Reads (p : Reader ε α) (bytes : List UInt8) (a : α) : Prop :=
  ∀ c after, c.rest = bytes ++ after → p c = .ok (a, c.skip bytes.length)

theorem Reads.pure (a : α) : Reads (Pure.pure a : Reader ε α) [] a := fun _ _ _ => rfl

theorem Reads.bind {p : Reader ε α} {q : α → Reader ε β} {bytes bytes' : List UInt8} {a : α}
    {b : β} (hp : Reads p bytes a) (hq : Reads (q a) bytes' b) :
    Reads (p >>= q) (bytes ++ bytes') b := by
  intro c after h
  rw [List.append_assoc] at h
  have hFirst : p c = .ok (a, c.skip bytes.length) := hp c _ h
  have hRest : (c.skip bytes.length).rest = bytes' ++ after := by simp [h]
  have hSecond := hq _ after hRest
  show (p c >>= fun r => q r.1 r.2) = _
  rw [hFirst]
  show q a (c.skip bytes.length) = _
  rw [hSecond, Cursor.skip_skip, List.length_append]

theorem Reads.map {p : Reader ε α} {bytes : List UInt8} {a : α} (f : α → β)
    (hp : Reads p bytes a) : Reads (p >>= fun a => Pure.pure (f a)) bytes (f a) := by
  have h := hp.bind (q := fun a => Pure.pure (f a)) (Reads.pure (f a))
  rwa [List.append_nil] at h

theorem reads_byte (eof : ε) (b : UInt8) : Reads (readByte eof) [b] b := by
  intro c after h
  have hByte : c.data[c.pos]? = some b := by
    have : (c.data.drop c.pos)[0]? = some b := by
      show c.rest[0]? = _
      rw [h]
      rfl
    simpa using this
  simp [readByte, hByte]

/-! ## LEB128 numbers -/

/-- `res |= (n & 0x7f) << i`. -/
def lebBits (w i : Nat) (b : UInt8) : BitVec w := (b &&& 0x7f).toBitVec.setWidth w <<< i

/-- `res |= -(n & 0x40) << i`. -/
def lebSign (w i : Nat) (b : UInt8) : BitVec w := (-((b &&& 0x40).toBitVec.setWidth w)) <<< i

/-- What the last byte of a signed number adds. -/
def lebLast (w : Nat) (signed : Bool) (i : Nat) (b : UInt8) : BitVec w :=
  if signed then lebSign w i b else 0

/-- The loop over the bytes of a number. Every byte takes one of `fuel`, so that the bytes
are used up first; bits that are shifted out of the word are lost. -/
def lebLoop (eof : ε) (w : Nat) (signed : Bool) : (fuel i : Nat) → BitVec w →
    Reader ε (BitVec w)
  | 0, _, _ => throw eof
  | fuel + 1, i, res => do
    let n ← readByte eof
    let res := res ||| lebBits w i n
    if n &&& 0x80 = 0 then return res ||| lebLast w signed i n
    lebLoop eof w signed fuel (i + 7) res

def uleb (eof : ε) (w : Nat) : Reader ε (BitVec w) := do
  let c ← get
  lebLoop eof w false (c.data.length + 1) 0 0

def sleb (eof : ε) (w : Nat) : Reader ε (BitVec w) := do
  let c ← get
  lebLoop eof w true (c.data.length + 1) 0 0

/-- What `lebLoop` makes of the bytes of a number. -/
def lebWord (w : Nat) (signed : Bool) : (i : Nat) → BitVec w → List UInt8 → BitVec w
  | _, res, [] => res
  | i, res, [b] => res ||| lebBits w i b ||| lebLast w signed i b
  | i, res, b :: bs => lebWord w signed (i + 7) (res ||| lebBits w i b) bs

def ulebWord (w : Nat) (raw : List UInt8) : BitVec w := lebWord w false 0 0 raw

def slebWord (w : Nat) (raw : List UInt8) : BitVec w := lebWord w true 0 0 raw

theorem last_iff (b : UInt8) : b &&& 0x80 = 0 ↔ b.toNat < 128 := by
  have h : ∀ n : Fin 256, UInt8.ofNat n &&& 0x80 = 0 ↔ (UInt8.ofNat n).toNat < 128 := by
    decide +kernel
  simpa using h ⟨b.toNat, b.toNat_lt⟩

variable {raw : List UInt8}

theorem reads_lebLoop (eof : ε) {w : Nat} (signed : Bool)
    (h : Leb128.Ends raw) {fuel : Nat} (hFuel : raw.length ≤ fuel) (i : Nat) (res : BitVec w) :
    Reads (lebLoop eof w signed fuel i res) raw (lebWord w signed i res raw) := by
  induction raw generalizing fuel i res with
  | nil => exact absurd h (by simp [Leb128.Ends])
  | cons b bs ih =>
    obtain ⟨fuel, rfl⟩ := Nat.exists_eq_add_of_lt (Nat.lt_of_lt_of_le (Nat.succ_pos _) hFuel)
    simp only [Nat.zero_add] at hFuel ⊢
    rw [lebLoop]
    refine (reads_byte eof b).bind ?_
    cases bs with
    | nil =>
      have hLast : b &&& 0x80 = 0 := (last_iff b).2 h
      simp only [hLast, ↓reduceIte]
      exact Reads.pure _
    | cons b' bs =>
      have hMore : ¬ b &&& 0x80 = 0 := by
        rw [last_iff]
        have := h.1
        omega
      simp only [hMore, ↓reduceIte]
      exact ih h.2 (by simpa using hFuel) _ _

theorem length_le_of_rest {c : Cursor} {bytes after : List UInt8} (h : c.rest = bytes ++ after) :
    bytes.length ≤ c.data.length := by
  have : (c.data.drop c.pos).length = bytes.length + after.length := by
    show c.rest.length = _
    rw [h, List.length_append]
  rw [List.length_drop] at this
  omega

theorem reads_uleb (eof : ε) (w : Nat) (h : Leb128.Ends raw) :
    Reads (uleb eof w) raw (ulebWord w raw) := by
  intro c after hRest
  exact reads_lebLoop eof false h (Nat.le_succ_of_le (length_le_of_rest hRest)) 0 0 c after hRest

theorem reads_sleb (eof : ε) (w : Nat) (h : Leb128.Ends raw) :
    Reads (sleb eof w) raw (slebWord w raw) := by
  intro c after hRest
  exact reads_lebLoop eof true h (Nat.le_succ_of_le (length_le_of_rest hRest)) 0 0 c after hRest

theorem lebBits_eq (w i : Nat) (b : UInt8) :
    lebBits w i b = BitVec.ofNat w ((b.toNat % 128) <<< i) := by
  have hLow : (b &&& 0x7f).toNat = b.toNat % 128 := by
    rw [UInt8.toNat_and]
    exact Nat.and_two_pow_sub_one_eq_mod b.toNat 7
  refine BitVec.eq_of_toNat_eq ?_
  unfold lebBits
  rw [BitVec.toNat_shiftLeft, BitVec.toNat_setWidth, BitVec.toNat_ofNat, UInt8.toNat_toBitVec, hLow,
    Nat.shiftLeft_eq, Nat.shiftLeft_eq, Nat.mod_mul_mod]

theorem value_cons_shift (b : UInt8) (bs : List UInt8) (i : Nat) :
    Leb128.value (b :: bs) <<< i =
      (b.toNat % 128) <<< i ||| Leb128.value bs <<< (i + 7) := by
  have hLow : b.toNat % 128 < 2 ^ 7 := Nat.mod_lt _ (by decide)
  have hOr := Nat.two_pow_add_eq_or_of_lt hLow (Leb128.value bs)
  have hShift : Leb128.value bs <<< (i + 7) = (2 ^ 7 * Leb128.value bs) <<< i := by
    rw [Nat.shiftLeft_eq, Nat.shiftLeft_eq]
    ring
  rw [hShift, ← Nat.shiftLeft_or_distrib, Nat.or_comm, ← hOr, Leb128.value]
  rw [Nat.add_comm]

theorem lebWord_eq (w i : Nat) (res : BitVec w) (raw : List UInt8) :
    lebWord w false i res raw = res ||| BitVec.ofNat w (Leb128.value raw <<< i) := by
  induction raw generalizing i res with
  | nil => simp [lebWord, Leb128.value]
  | cons b bs ih =>
    cases bs with
    | nil => simp [lebWord, lebLast, Leb128.value, lebBits_eq]
    | cons c cs =>
      rw [lebWord, ih, value_cons_shift b, BitVec.ofNat_or, lebBits_eq, BitVec.or_assoc]
      simp

/-- The loop computes the number that the bytes spell, as far as it fits. -/
theorem ulebWord_eq (w : Nat) (raw : List UInt8) :
    ulebWord w raw = BitVec.ofNat w (Leb128.value raw) := by
  unfold ulebWord
  rw [lebWord_eq]
  simp

theorem ofInt_shiftLeft (w k : Nat) (z : Int) :
    BitVec.ofInt w z <<< k = BitVec.ofInt w (2 ^ k * z) := by
  rw [BitVec.shiftLeft_eq_mul_twoPow, BitVec.mul_comm, BitVec.ofInt_mul]
  congr 1
  refine BitVec.eq_of_toNat_eq ?_
  rw [BitVec.toNat_twoPow, show (2 ^ k : Int) = ((2 ^ k : Nat) : Int) by simp,
    BitVec.ofInt_natCast, BitVec.toNat_ofNat]

theorem or_shiftLeft_ofInt (w : Nat) {n k : Nat} (h : n < 2 ^ k) (z : Int) :
    BitVec.ofNat w n ||| BitVec.ofInt w z <<< k = BitVec.ofInt w (n + 2 ^ k * z) := by
  have hApart : BitVec.ofNat w n &&& BitVec.ofInt w z <<< k = 0#w := by
    refine BitVec.eq_of_getLsbD_eq fun j hj => ?_
    rw [BitVec.getLsbD_and, BitVec.getLsbD_shiftLeft, BitVec.getLsbD_ofNat]
    by_cases hLow : j < k
    · simp [hLow]
    · have hHigh : n.testBit j = false :=
        Nat.testBit_lt_two_pow (h.trans_le (Nat.pow_le_pow_right (by decide) (by omega)))
      simp [hHigh]
  rw [← BitVec.add_eq_or_of_and_eq_zero _ _ hApart, ofInt_shiftLeft, BitVec.ofInt_add,
    BitVec.ofInt_natCast]

theorem lebBits_shift (w i : Nat) (b : UInt8) :
    lebBits w i b = BitVec.ofNat w (b.toNat % 128) <<< i := by
  rw [lebBits_eq]
  refine BitVec.eq_of_toNat_eq ?_
  simp [Nat.shiftLeft_eq]

theorem and_bit_eq (n k : Nat) : n &&& 2 ^ k = if n.testBit k then 2 ^ k else 0 := by
  refine Nat.eq_of_testBit_eq fun j => ?_
  rw [Nat.testBit_and, Nat.testBit_two_pow]
  by_cases hj : k = j
  · subst hj
    cases hBit : n.testBit k <;> simp
  · cases hBit : n.testBit k <;> simp [hj]

theorem signBit_eq (b : UInt8) :
    (b &&& 0x40).toNat = if b.toNat % 128 < 64 then 0 else 64 := by
  have hTest : b.toNat.testBit 6 = decide (b.toNat / 2 ^ 6 % 2 = 1) :=
    Nat.testBit_eq_decide_div_mod_eq
  rw [UInt8.toNat_and, show (0x40 : UInt8).toNat = 2 ^ 6 from rfl, and_bit_eq, hTest]
  by_cases hLow : b.toNat % 128 < 64
  · rw [if_pos hLow, decide_eq_false (by omega)]
    rfl
  · rw [if_neg hLow, decide_eq_true (by omega)]
    rfl

/-- Bit 6 of the last byte is the sign. -/
theorem lebLast_eq (w i : Nat) (b : UInt8) :
    lebBits w i b ||| lebLast w true i b = BitVec.ofInt w (Leb128.signedValue [b]) <<< i := by
  have hSign : (b &&& 0x40).toBitVec.setWidth w =
      BitVec.ofNat w (if b.toNat % 128 < 64 then 0 else 64) := by
    refine BitVec.eq_of_toNat_eq ?_
    rw [BitVec.toNat_setWidth, UInt8.toNat_toBitVec, signBit_eq, BitVec.toNat_ofNat]
  rw [lebBits_shift, lebLast, if_pos rfl, lebSign, hSign, ← BitVec.shiftLeft_or_distrib,
    Leb128.signedValue]
  congr 1
  by_cases hLow : b.toNat % 128 < 64
  · rw [if_pos hLow, if_pos hLow, BitVec.ofInt_natCast]
    simp
  · rw [if_neg hLow, if_neg hLow]
    obtain ⟨c, hc⟩ : ∃ c, b.toNat % 128 = 64 + c := ⟨b.toNat % 128 - 64, by omega⟩
    have hSmall : c < 2 ^ 6 := by omega
    have hSix : BitVec.ofNat w 64 = BitVec.ofInt w 1 <<< 6 := by
      rw [ofInt_shiftLeft]
      rfl
    have hNeg : -BitVec.ofNat w 64 = BitVec.ofInt w (-1) <<< 6 := by
      rw [ofInt_shiftLeft, show (2 ^ 6 * (-1) : Int) = -(64 : Nat) by decide, BitVec.ofInt_neg,
        BitVec.ofInt_natCast]
    have hOnes : BitVec.ofInt w (-1) = BitVec.allOnes w := by
      rw [BitVec.ofInt_neg, ← BitVec.neg_one_eq_allOnes]
      rfl
    have hTop : BitVec.ofNat w 64 ||| BitVec.ofInt w (-1) <<< 6 = BitVec.ofInt w (-1) <<< 6 := by
      rw [hSix, ← BitVec.shiftLeft_or_distrib, hOnes, BitVec.or_allOnes]
    have hOr : BitVec.ofNat w (64 + c) = BitVec.ofNat w c ||| BitVec.ofNat w 64 := by
      rw [show 64 + c = 64 ||| c from Nat.two_pow_add_eq_or_of_lt hSmall 1, Nat.or_comm,
        BitVec.ofNat_or]
    rw [hc, hOr, hNeg, BitVec.or_assoc, hTop, or_shiftLeft_ofInt w hSmall]
    congr 1
    omega

theorem slebWord_res (w i : Nat) (res : BitVec w) (h : raw ≠ []) :
    lebWord w true i res raw = res ||| BitVec.ofInt w (Leb128.signedValue raw) <<< i := by
  induction raw generalizing i res with
  | nil => exact absurd rfl h
  | cons b bs ih =>
    cases bs with
    | nil => rw [lebWord, BitVec.or_assoc, lebLast_eq]
    | cons c cs =>
      have hByte : b.toNat % 128 < 2 ^ 7 := Nat.mod_lt _ (by decide)
      rw [lebWord, ih _ _ (List.cons_ne_nil c cs), BitVec.or_assoc, lebBits_shift, Nat.add_comm i 7,
        BitVec.shiftLeft_add, ← BitVec.shiftLeft_or_distrib, or_shiftLeft_ofInt w hByte,
        Leb128.signedValue_cons b (List.cons_ne_nil c cs)]
      rfl
      simp

/-- The loop computes the number with its sign, as far as it fits. -/
theorem slebWord_eq (w : Nat) (h : raw ≠ []) :
    slebWord w raw = BitVec.ofInt w (Leb128.signedValue raw) := by
  rw [slebWord, slebWord_res w 0 0 h, BitVec.shiftLeft_zero]
  exact BitVec.zero_or

end TcfAgent.Lib

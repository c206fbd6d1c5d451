import TcfAgent.Lib.Simulation

/-!
# Software breakpoints in memory

`services/breakpoints.c`: a software breakpoint is an opcode that `plant_instruction`
writes over the code, having saved what was there; `remove_instruction` writes it back.
The memory access functions of a context pass what they read through
`check_breakpoints_on_memory_read`, which puts the saved code in, and what they write
through `check_breakpoints_on_memory_write`, which moves the new bytes to the saved code
and the opcode to the buffer, so that nobody sees the opcodes.

Physical memory is a function of a canonical address (a memory context and an address in
it). `canon` is `context_get_canonical_addr` of the platform: it gives the canonical
address of an address and the block in which the mapping is contiguous. Addresses are
64 bit and wrap (`wrap`). Planting is modelled for the branch that plants in software.
The platform can fail: an event says how many bytes are written before that. A read that
fails is one of the bytes that could be read, which are all that the client gets.

Main results:

* `checkWrite_spec`, `checkRead_spec` — the two loops keep physical memory in step with
  the memory that would be there without breakpoints;
* `memory_run`  — so does every run in which instructions are planted only where no
  planted one is, and none is where a write does not get to: what is read and what is left
  at the end is what it would be without.
-/

namespace TcfAgent.BreakpointMemory

open TcfAgent.Lib

/-! ## The model -/

/-- Memory, by canonical addresses. -/
abbrev Memory := Nat × Nat → UInt8

/-- The results of `context_get_canonical_addr`: `canonical_ctx`, `canonical_addr`,
`block_addr` and `block_size`. -/
structure Block where
  mem  : Nat
  addr : Nat
  base : Nat
  size : Nat
deriving DecidableEq, Repr

/-- `ContextAddress` arithmetic. -/
def wrap (n : Nat) : Nat := n % 2 ^ 64

/-- `mem` and `address` are `cb.ctx` and `cb.address`. -/
structure BreakInstruction where
  mem         : Nat
  address     : Nat
  savedSize   : Nat := 0
  savedCode   : Nat → UInt8 := fun _ => 0
  plantedCode : Nat → UInt8 := fun _ => 0
  planted     : Bool := false

/-- What a client sees of memory: the bytes it has written and those it was given. -/
inductive LogEntry where
  | read (ctx address : Nat) (bytes : List UInt8)
  | write (ctx address : Nat) (bytes : List UInt8)

/-- Physical memory, the instructions, and what reads and writes gave. -/
structure State where
  instructions : List BreakInstruction := []
  phys         : Memory
  log          : List LogEntry := []

/-- Not skipped by the loops over `instructions`. -/
def BreakInstruction.active (bi : BreakInstruction) : Bool :=
  bi.planted && bi.savedSize != 0

/-- `MAX_BI_SIZE` -/
def maxBiSize : Nat := 16

section

variable (canon : Nat → Nat → Option Block)

/-- The byte of a context at an address. -/
def byteAt (memory : Memory) (ctx address : Nat) : UInt8 :=
  match canon ctx address with
  | some b => memory (b.mem, b.addr)
  | none => 0

/-- The platform writes `size` bytes, from `buf[o]` on. -/
def writeBytes (memory : Memory) (ctx address o : Nat) (buf : Nat → UInt8) : Nat → Memory
  | 0 => memory
  | size + 1 =>
    let memory := match canon ctx address with
      | some b => Function.update memory (b.mem, b.addr) (buf o)
      | none => memory
    writeBytes memory ctx (address + 1) (o + 1) buf size

/-- The addresses of the range have canonical ones. -/
def Accessible (ctx address size : Nat) : Prop :=
  address + size < 2 ^ 64 ∧ ∀ k < size, (canon ctx (address + k)).isSome

instance (ctx address size : Nat) : Decidable (Accessible canon ctx address size) := by
  unfold Accessible
  infer_instance

/-- The body of the `for (i...)` loop of `check_breakpoints_on_memory_read`. The pointer
`buf` of the source is `o` bytes into the buffer. -/
def readByte (bi : BreakInstruction) (memAddr sz o : Nat) (buf : Nat → UInt8) (i : Nat) :
    Nat → UInt8 :=
  if wrap (bi.address + i) < memAddr then buf
  else if wrap (bi.address + i) ≥ wrap (memAddr + sz) then buf
  else Function.update buf (o + (wrap (bi.address + i) - memAddr)) (bi.savedCode i)

/-- The body of its loop over `instructions`. -/
def readInstruction (mem memAddr sz o : Nat) (buf : Nat → UInt8) (bi : BreakInstruction) :
    Nat → UInt8 :=
  if ¬ bi.active then buf
  else if bi.mem ≠ mem then buf
  else if wrap (bi.address + bi.savedSize) ≤ memAddr then buf
  else if bi.address ≥ wrap (memAddr + sz) then buf
  else (List.range bi.savedSize).foldl (readByte bi memAddr sz o) buf

/-- The size of the range that is handled in one round: it ends with the block. -/
def chunkSize (b : Block) (size : Nat) : Nat :=
  min size (wrap (b.base + b.size + 2 ^ 64 - b.addr))

/-- `check_breakpoints_on_memory_read`. The canonical address is asked for only when there
is an active instruction; `none` is an error. -/
def checkRead (instructions : List BreakInstruction) :
    (fuel ctx address o size : Nat) → (Nat → UInt8) → Option (Nat → UInt8)
  | _, _, _, _, 0, buf => some buf
  | 0, _, _, _, _ + 1, _ => none
  | fuel + 1, ctx, address, o, size + 1, buf =>
    if instructions.any (·.active) then
      (canon ctx address).bind fun b =>
        let sz := chunkSize b (size + 1)
        checkRead instructions fuel ctx (wrap (address + sz)) (o + sz) (size + 1 - sz)
          (instructions.foldl (readInstruction b.mem b.addr sz o) buf)
    else some buf

/-- The body of the `for (i...)` loop of `check_breakpoints_on_memory_write`. -/
def writeByte (memAddr sz o : Nat) (p : BreakInstruction × (Nat → UInt8)) (i : Nat) :
    BreakInstruction × (Nat → UInt8) :=
  let (bi, buf) := p
  if wrap (bi.address + i) < memAddr then p
  else if wrap (bi.address + i) ≥ wrap (memAddr + sz) then p
  else
    let j := o + (wrap (bi.address + i) - memAddr)
    ({ bi with savedCode := Function.update bi.savedCode i (buf j) },
      Function.update buf j (bi.plantedCode i))

/-- The body of its loop over `instructions`. -/
def writeInstruction (mem memAddr sz o : Nat) (buf : Nat → UInt8) (bi : BreakInstruction) :
    BreakInstruction × (Nat → UInt8) :=
  if ¬ bi.active then (bi, buf)
  else if bi.mem ≠ mem then (bi, buf)
  else if wrap (bi.address + bi.savedSize) ≤ memAddr then (bi, buf)
  else if bi.address ≥ wrap (memAddr + sz) then (bi, buf)
  else (List.range bi.savedSize).foldl (writeByte memAddr sz o) (bi, buf)

/-- Its loop over `instructions`. -/
def writeInstructions (mem memAddr sz o : Nat) :
    List BreakInstruction → (Nat → UInt8) → List BreakInstruction × (Nat → UInt8)
  | [], buf => ([], buf)
  | bi :: rest, buf =>
    let (bi, buf) := writeInstruction mem memAddr sz o buf bi
    let (rest, buf) := writeInstructions mem memAddr sz o rest buf
    (bi :: rest, buf)

/-- `check_breakpoints_on_memory_write` -/
def checkWrite : (fuel ctx address o size : Nat) → List BreakInstruction → (Nat → UInt8) →
    Option (List BreakInstruction × (Nat → UInt8))
  | _, _, _, _, 0, instructions, buf => some (instructions, buf)
  | 0, _, _, _, _ + 1, _, _ => none
  | fuel + 1, ctx, address, o, size + 1, instructions, buf =>
    if instructions.any (·.active) then
      (canon ctx address).bind fun b =>
        let sz := chunkSize b (size + 1)
        let (instructions, buf) := writeInstructions b.mem b.addr sz o instructions buf
        checkWrite fuel ctx (wrap (address + sz)) (o + sz) (size + 1 - sz) instructions buf
    else some (instructions, buf)

/-- `context_read_mem` while `planting_instruction` is set: memory as it is. -/
def readRaw (phys : Memory) (ctx address : Nat) (k : Nat) : UInt8 :=
  byteAt canon phys ctx (address + k)

/-- `context_read_mem`; a range past the end of the address space is refused. -/
def contextReadMem (s : State) (ctx address size : Nat) : Option State :=
  if 2 ^ 64 ≤ address + size then some s
  else
    (checkRead canon s.instructions size ctx address 0 size
      (readRaw canon s.phys ctx address)).map fun buf =>
        { s with log := s.log ++ [.read ctx address ((List.range size).map buf)] }

/-- `context_write_mem`, which fails when the platform has written `done` bytes and these are not
all. The breakpoints are looked at before anything is written. -/
def contextWriteMem (s : State) (ctx address : Nat) (bytes : List UInt8) (done : Nat) :
    Option State :=
  if 2 ^ 64 ≤ address + bytes.length then some s
  else
    (checkWrite canon bytes.length ctx address 0 bytes.length s.instructions
      (fun k => bytes.getD k 0)).map fun (instructions, buf) =>
        { s with
          instructions := instructions
          phys := writeBytes canon s.phys ctx address 0 buf done
          log := s.log ++ [.write ctx address (bytes.take done)] }

/-- `plant_instruction`, in software. `io` says how the memory access goes: the code cannot be read,
or so many bytes of the opcode are written; without all of them it is not planted. -/
def plantInstruction (s : State) (n : Nat) (encoding : List UInt8) (io : Option Nat) :
    Option State :=
  s.instructions[n]?.bind fun bi =>
    if ¬ bi.planted ∧ 0 < encoding.length ∧ encoding.length ≤ maxBiSize then
      let bi := { bi with
        savedSize := encoding.length
        plantedCode := fun k => encoding.getD k 0 }
      match io with
      | none => some { s with instructions := s.instructions.set n bi }
      | some done => some { s with
          instructions := s.instructions.set n { bi with
            savedCode := readRaw canon s.phys bi.mem bi.address
            planted := done = bi.savedSize }
          phys := writeBytes canon s.phys bi.mem bi.address 0 bi.plantedCode done }
    else none

/-- `remove_instruction` for an instruction planted in software: the saved code is written
back when the opcode is still there. When that fails, the instruction is still planted. -/
def removeInstruction (s : State) (n : Nat) (io : Option Nat) : Option State :=
  s.instructions[n]?.bind fun bi =>
    if bi.planted then
      match io with
      | none => some s
      | some done =>
        if ∀ i < bi.savedSize, readRaw canon s.phys bi.mem bi.address i = bi.plantedCode i then
          some { s with
            instructions := s.instructions.set n { bi with planted := done ≠ bi.savedSize }
            phys := writeBytes canon s.phys bi.mem bi.address 0 bi.savedCode done }
        else some { s with instructions := s.instructions.set n { bi with planted := false } }
    else none

/-- `free_instruction` asserts that the instruction is not planted. -/
def freeInstruction (s : State) (n : Nat) : Option State :=
  s.instructions[n]?.bind fun bi =>
    if bi.planted then none else some { s with instructions := s.instructions.eraseIdx n }

/-- `add_instruction` -/
def addInstruction (s : State) (mem address : Nat) : State :=
  { s with instructions := s.instructions ++ [{ mem := mem, address := address }] }

/-- Planting, removing, and access to memory. -/
inductive Event where
  | add (mem address : Nat)
  | free (n : Nat)
  | plant (n : Nat) (encoding : List UInt8) (io : Option Nat)
  | remove (n : Nat) (io : Option Nat)
  | read (ctx address size : Nat)
  | write (ctx address : Nat) (bytes : List UInt8) (done : Nat)

def step (s : State) : Event → Option State
  | .add mem address => some (addInstruction s mem address)
  | .free n => freeInstruction s n
  | .plant n encoding io => plantInstruction canon s n encoding io
  | .remove n io => removeInstruction canon s n io
  | .read ctx address size => contextReadMem canon s ctx address size
  | .write ctx address bytes done => contextWriteMem canon s ctx address bytes done

/-- None of the bytes is the last one of its canonical address space. -/
def BelowTop (ctx address size : Nat) : Prop :=
  ∀ k < size, ∀ b ∈ canon ctx (address + k), b.addr + 1 < 2 ^ 64

/-- The bytes of the instruction are at canonical addresses. -/
def AtCanonical (mem address size : Nat) : Prop :=
  address + size < 2 ^ 64 ∧
    ∀ k < size, (canon mem (address + k)).map (fun b => (b.mem, b.addr)) = some (mem, address + k)

/-- Two instructions have no byte in common. -/
def Apart (mem address size : Nat) (bi : BreakInstruction) : Prop :=
  bi.planted = true → bi.mem = mem →
    bi.address + bi.savedSize ≤ address ∨ address + size ≤ bi.address

/-- The byte at a canonical address is one of the planted opcode. -/
def BreakInstruction.Covers (bi : BreakInstruction) (mem addr : Nat) : Prop :=
  bi.planted = true ∧ bi.mem = mem ∧ bi.address ≤ addr ∧ addr < bi.address + bi.savedSize

/-- No planted instruction is where a write does not get to. -/
def Reached (s : State) (ctx address size done : Nat) : Prop :=
  ∀ k < size, done ≤ k → ∀ b ∈ canon ctx (address + k), ∀ bi ∈ s.instructions,
    ¬ bi.Covers b.mem b.addr

/-- What the assertions ask for, and what the platform gives: addresses have canonical ones, and it
writes no more than it is told to. -/
def Allowed (s : State) : Event → Prop
  | .add _ _ => True
  | .free n => ∃ bi ∈ s.instructions[n]?, bi.planted = false
  | .plant n encoding io => ∃ bi ∈ s.instructions[n]?, bi.planted = false ∧ 0 < encoding.length ∧
      encoding.length ≤ maxBiSize ∧ AtCanonical canon bi.mem bi.address encoding.length ∧
      ∀ done ∈ io, done ≤ encoding.length
  | .remove n io => ∃ bi ∈ s.instructions[n]?, bi.planted = true ∧ ∀ done ∈ io, done ≤ bi.savedSize
  | .read ctx address size => 2 ^ 64 ≤ address + size ∨ Accessible canon ctx address size
  | .write ctx address bytes done => done ≤ bytes.length ∧
      (2 ^ 64 ≤ address + bytes.length ∨ Accessible canon ctx address bytes.length)

/-- An instruction is planted only where no planted one is, an opcode is written or written over as
a whole or not at all, what is read and written ends below the end of the address space, and a write
gets to all planted instructions of its range. -/
def Clear (s : State) : Event → Prop
  | .plant n encoding io => (∀ done ∈ io, done = 0 ∨ done = encoding.length) ∧
      ∀ bi ∈ s.instructions[n]?, ∀ other ∈ s.instructions,
        Apart bi.mem bi.address encoding.length other
  | .remove n io => ∀ bi ∈ s.instructions[n]?, ∀ done ∈ io, done = 0 ∨ done = bi.savedSize
  | .read ctx address size => address + size < 2 ^ 64 → BelowTop canon ctx address size
  | .write ctx address bytes done => address + bytes.length < 2 ^ 64 →
      BelowTop canon ctx address bytes.length ∧ Reached canon s ctx address bytes.length done
  | _ => True

instance (mem address size : Nat) : Decidable (AtCanonical canon mem address size) := by
  unfold AtCanonical
  infer_instance

instance (s : State) (e : Event) : Decidable (Allowed canon s e) := by
  cases e <;> unfold Allowed <;> infer_instance

instance (ctx address size : Nat) : Decidable (BelowTop canon ctx address size) := by
  unfold BelowTop
  infer_instance

instance (mem address size : Nat) (bi : BreakInstruction) :
    Decidable (Apart mem address size bi) := by
  unfold Apart
  infer_instance

instance (bi : BreakInstruction) (mem addr : Nat) : Decidable (bi.Covers mem addr) := by
  unfold BreakInstruction.Covers
  infer_instance

instance (s : State) (ctx address size done : Nat) :
    Decidable (Reached canon s ctx address size done) := by
  unfold Reached
  infer_instance

instance (s : State) (e : Event) : Decidable (Clear canon s e) := by
  cases e <;> unfold Clear <;> infer_instance

/-- The memory of a machine without breakpoints: a write writes its bytes, and a read must
have given the bytes that are there. -/
def plainStep (memory : Memory) : LogEntry → Option Memory
  | .write ctx address bytes =>
    some (writeBytes canon memory ctx address 0 (fun k => bytes.getD k 0) bytes.length)
  | .read ctx address bytes =>
    if bytes = (List.range bytes.length).map fun k => byteAt canon memory ctx (address + k) then
      some memory
    else none

/-- What the platform's `context_get_canonical_addr` keeps to: the address is in its block,
and inside a block the mapping is contiguous. -/
structure Canonical : Prop where
  inside : ∀ ctx a b, canon ctx a = some b →
    b.base ≤ b.addr ∧ b.addr < b.base + b.size ∧ b.base + b.size ≤ 2 ^ 64 ∧ b.size < 2 ^ 64
  contiguous : ∀ ctx a b, canon ctx a = some b → ∀ k, b.addr + k < b.base + b.size →
    a + k < 2 ^ 64 → ∃ b', canon ctx (a + k) = some b' ∧ b'.mem = b.mem ∧ b'.addr = b.addr + k

end

/-- `context_get_canonical_addr` of `context-linux.c`; `ctx->mem` is `memOf ctx`. -/
def linuxCanonicalAddr (memOf : Nat → Nat) (ctx addr : Nat) : Option Block :=
  let pageSize := 0x100000
  if addr < 2 ^ 64 then some ⟨memOf ctx, addr, addr / pageSize * pageSize, pageSize⟩ else none

theorem canonical_linux (memOf : Nat → Nat) : Canonical (linuxCanonicalAddr memOf) := by
  constructor
  · intro ctx a b hb
    unfold linuxCanonicalAddr at hb
    split_ifs at hb with ha
    cases hb
    dsimp only
    omega
  · intro ctx a b hb k _ hk
    unfold linuxCanonicalAddr at hb ⊢
    split_ifs at hb with ha
    cases hb
    exact ⟨_, if_pos hk, rfl, rfl⟩

/-! ## What one instruction does to a chunk of the buffer -/

variable {bi : BreakInstruction} {insts : List BreakInstruction} {mem addr sz o : Nat}
variable {buf : Nat → UInt8} {n : Nat}

theorem wrap_of_lt (h : n < 2 ^ 64) : wrap n = n := Nat.mod_eq_of_lt h

/-- The loop over the bytes of an opcode, while reading. -/
theorem foldl_readByte (hBi : bi.address + bi.savedSize < 2 ^ 64) (hChunk : addr + sz < 2 ^ 64)
    (hn : n ≤ bi.savedSize) (k : Nat) :
    (List.range n).foldl (readByte bi addr sz o) buf k =
      if o ≤ k ∧ k < o + sz ∧ bi.address ≤ addr + (k - o) ∧ addr + (k - o) < bi.address + n then
        bi.savedCode (addr + (k - o) - bi.address)
      else buf k := by
  induction n with
  | zero => rw [if_neg (by omega)]; rfl
  | succ n ih =>
    rw [List.range_succ, List.foldl_append, List.foldl_cons, List.foldl_nil, readByte,
      wrap_of_lt (by omega), wrap_of_lt hChunk]
    have ih := ih (by omega)
    split_ifs with hLow hHigh hIn hIn hIn
    · rw [ih, if_pos (by omega)]
    · rw [ih, if_neg (by omega)]
    · rw [ih, if_pos (by omega)]
    · rw [ih, if_neg (by omega)]
    · by_cases hk : k = o + (bi.address + n - addr)
      · rw [hk, Function.update_self]
        congr 1
        omega
      · rw [Function.update_of_ne hk, ih, if_pos (by omega)]
    · rw [Function.update_of_ne (by omega), ih, if_neg (by omega)]

theorem not_covers_of_not_active (h : ¬ bi.active = true) (a : Nat) : ¬ bi.Covers mem a := by
  rintro ⟨hPlanted, -, hLow, hHigh⟩
  apply h
  have hSize : bi.savedSize ≠ 0 := by omega
  simp [BreakInstruction.active, hPlanted, hSize]

theorem planted_of_active (h : bi.active = true) : bi.planted = true :=
  (Bool.and_eq_true_iff.mp h).1

/-- Where the instruction is, the chunk gets the saved code. -/
theorem readInstruction_eq (hBi : bi.planted = true → bi.address + bi.savedSize < 2 ^ 64)
    (hChunk : addr + sz < 2 ^ 64) (k : Nat) :
    readInstruction mem addr sz o buf bi k =
      if o ≤ k ∧ k < o + sz ∧ bi.Covers mem (addr + (k - o)) then
        bi.savedCode (addr + (k - o) - bi.address)
      else buf k := by
  unfold readInstruction
  by_cases hActive : bi.active = true
  · have hPlanted := planted_of_active hActive
    have hFits := hBi hPlanted
    rw [if_neg (not_not_intro hActive), wrap_of_lt hFits, wrap_of_lt hChunk]
    by_cases hMem : bi.mem = mem
    · have hCovers (a : Nat) :
          bi.Covers mem a ↔ bi.address ≤ a ∧ a < bi.address + bi.savedSize := by
        simp [BreakInstruction.Covers, hPlanted, hMem]
      rw [if_neg (not_not_intro hMem)]
      simp only [hCovers]
      split_ifs with hBefore hBehind hIn hIn hIn
      · omega
      · rfl
      · omega
      · rfl
      · rw [foldl_readByte hFits hChunk (Nat.le_refl _), if_pos hIn]
      · rw [foldl_readByte hFits hChunk (Nat.le_refl _), if_neg hIn]
    · rw [if_pos hMem, if_neg]
      rintro ⟨-, -, hCovers⟩
      exact hMem hCovers.2.1
  · rw [if_pos hActive, if_neg]
    rintro ⟨-, -, hCovers⟩
    exact not_covers_of_not_active hActive _ hCovers

/-- The loop over the bytes of an opcode, while writing. -/
theorem foldl_writeByte (hBi : bi.address + bi.savedSize < 2 ^ 64) (hChunk : addr + sz < 2 ^ 64)
    (hn : n ≤ bi.savedSize) :
    (List.range n).foldl (writeByte addr sz o) (bi, buf) =
      ({ bi with
          savedCode := fun i =>
            if i < n ∧ addr ≤ bi.address + i ∧ bi.address + i < addr + sz then
              buf (o + (bi.address + i - addr))
            else bi.savedCode i },
        fun k =>
          if o ≤ k ∧ k < o + sz ∧ bi.address ≤ addr + (k - o) ∧ addr + (k - o) < bi.address + n then
            bi.plantedCode (addr + (k - o) - bi.address)
          else buf k) := by
  induction n with
  | zero =>
    refine Prod.ext ?_ ?_
    · simp
    · funext k
      dsimp only [List.range_zero, List.foldl_nil]
      rw [if_neg (by omega)]
  | succ n ih =>
    have ih := ih (by omega)
    rw [List.range_succ, List.foldl_append, List.foldl_cons, List.foldl_nil, ih]
    unfold writeByte
    dsimp only
    rw [wrap_of_lt (by omega), wrap_of_lt hChunk]
    by_cases hIn : addr ≤ bi.address + n ∧ bi.address + n < addr + sz
    · have hFree : ¬ (o ≤ o + (bi.address + n - addr) ∧ o + (bi.address + n - addr) < o + sz ∧
          bi.address ≤ addr + (o + (bi.address + n - addr) - o) ∧
          addr + (o + (bi.address + n - addr) - o) < bi.address + n) := by omega
      rw [if_neg (by omega), if_neg (by omega), if_neg hFree]
      refine Prod.ext ?_ ?_
      · simp only [BreakInstruction.mk.injEq, true_and, and_true]
        funext i
        by_cases hi : i = n
        · subst hi
          rw [Function.update_self, if_pos (by omega)]
        · rw [Function.update_of_ne hi]
          apply if_congr _ rfl rfl
          omega
      · funext k
        dsimp only
        by_cases hk : k = o + (bi.address + n - addr)
        · subst hk
          rw [Function.update_self, if_pos (by omega)]
          congr 1
          omega
        · rw [Function.update_of_ne hk]
          apply if_congr _ rfl rfl
          omega
    · -- the byte is not in the chunk, and nothing is done
      have hSkip (x y : BreakInstruction × (Nat → UInt8)) :
          (if bi.address + n < addr then x else if bi.address + n ≥ addr + sz then x else y) =
            x := by
        split_ifs
        · rfl
        · rfl
        · omega
      rw [hSkip]
      refine Prod.ext ?_ ?_
      · simp only [BreakInstruction.mk.injEq, true_and, and_true]
        funext i
        apply if_congr _ rfl rfl
        omega
      · funext k
        apply if_congr _ rfl rfl
        omega

/-- The instruction with the bytes of the chunk in its saved code. -/
def moved (mem addr sz o : Nat) (buf : Nat → UInt8) (bi : BreakInstruction) : BreakInstruction :=
  { bi with
    savedCode := fun i =>
      if bi.Covers mem (bi.address + i) ∧ addr ≤ bi.address + i ∧ bi.address + i < addr + sz then
        buf (o + (bi.address + i - addr))
      else bi.savedCode i }

/-- The chunk with the opcode in the place of the bytes. -/
def patched (mem addr sz o : Nat) (buf : Nat → UInt8) (bi : BreakInstruction) (k : Nat) : UInt8 :=
  if o ≤ k ∧ k < o + sz ∧ bi.Covers mem (addr + (k - o)) then
    bi.plantedCode (addr + (k - o) - bi.address)
  else buf k

theorem writeInstruction_eq (hBi : bi.planted = true → bi.address + bi.savedSize < 2 ^ 64)
    (hChunk : addr + sz < 2 ^ 64) :
    writeInstruction mem addr sz o buf bi =
      (moved mem addr sz o buf bi, patched mem addr sz o buf bi) := by
  have hSame (h : ∀ a, addr ≤ a → a < addr + sz → ¬ bi.Covers mem a) :
      (bi, buf) = (moved mem addr sz o buf bi, patched mem addr sz o buf bi) := by
    refine Prod.ext ?_ ?_
    · unfold moved
      cases bi
      simp only [BreakInstruction.mk.injEq, true_and, and_true]
      funext i
      rw [if_neg]
      rintro ⟨hCovers, hLow, hHigh⟩
      exact h _ hLow hHigh hCovers
    · funext k
      dsimp only
      unfold patched
      rw [if_neg]
      rintro ⟨hLow, hHigh, hCovers⟩
      exact h _ (by omega) (by omega) hCovers
  unfold writeInstruction
  by_cases hActive : bi.active = true
  · have hPlanted := planted_of_active hActive
    have hFits := hBi hPlanted
    rw [if_neg (not_not_intro hActive), wrap_of_lt hFits, wrap_of_lt hChunk]
    by_cases hMem : bi.mem = mem
    · have hCovers (a : Nat) :
          bi.Covers mem a ↔ bi.address ≤ a ∧ a < bi.address + bi.savedSize := by
        simp [BreakInstruction.Covers, hPlanted, hMem]
      rw [if_neg (not_not_intro hMem)]
      split_ifs with hBefore hBehind
      · apply hSame
        intro a hLow hHigh
        rw [hCovers]
        omega
      · apply hSame
        intro a hLow hHigh
        rw [hCovers]
        omega
      · rw [foldl_writeByte hFits hChunk (Nat.le_refl _)]
        refine Prod.ext ?_ ?_
        · unfold moved
          simp only [BreakInstruction.mk.injEq, true_and, and_true, hCovers]
          funext i
          apply if_congr _ rfl rfl
          omega
        · funext k
          unfold patched
          simp only [hCovers]
    · rw [if_pos hMem]
      apply hSame
      intro a _ _ hCovers
      exact hMem hCovers.2.1
  · rw [if_pos hActive]
    apply hSame
    intro a _ _
    exact not_covers_of_not_active hActive a

/-! ## Physical memory and the memory without breakpoints -/

/-- `clean` is the memory that would be there without breakpoints: its bytes are in the
saved code where an opcode is, and in physical memory elsewhere. -/
structure Sim (insts : List BreakInstruction) (phys clean : Memory) : Prop where
  saved : ∀ bi ∈ insts, ∀ m a, bi.Covers m a → clean (m, a) = bi.savedCode (a - bi.address)
  opcode : ∀ bi ∈ insts, ∀ m a, bi.Covers m a → phys (m, a) = bi.plantedCode (a - bi.address)
  rest : ∀ m a, (∀ bi ∈ insts, ¬ bi.Covers m a) → phys (m, a) = clean (m, a)
  fits : ∀ bi ∈ insts, bi.planted = true → bi.address + bi.savedSize < 2 ^ 64
  apart : insts.Pairwise fun x y => ∀ m a, x.Covers m a → ¬ y.Covers m a

/-- The bytes of a chunk are written to memory. -/
def writeChunk (memory : Memory) (mem addr sz o : Nat) (buf : Nat → UInt8) : Memory := fun p =>
  if p.1 = mem ∧ addr ≤ p.2 ∧ p.2 < addr + sz then buf (o + (p.2 - addr)) else memory p

theorem writeInstructions_spec
    (hFits : ∀ bi ∈ insts, bi.planted = true → bi.address + bi.savedSize < 2 ^ 64)
    (hApart : insts.Pairwise fun x y => ∀ m a, x.Covers m a → ¬ y.Covers m a)
    (hChunk : addr + sz < 2 ^ 64) :
    ∃ buf', writeInstructions mem addr sz o insts buf =
        (insts.map (moved mem addr sz o buf), buf') ∧
      (∀ k, (∀ bi ∈ insts, ¬ (o ≤ k ∧ k < o + sz ∧ bi.Covers mem (addr + (k - o)))) →
        buf' k = buf k) ∧
      ∀ bi ∈ insts, ∀ k, o ≤ k → k < o + sz → bi.Covers mem (addr + (k - o)) →
        buf' k = bi.plantedCode (addr + (k - o) - bi.address) := by
  induction insts generalizing buf with
  | nil => exact ⟨buf, rfl, fun _ _ => rfl, by simp⟩
  | cons x rest ih =>
    obtain ⟨hHead, hRest⟩ := List.pairwise_cons.mp hApart
    obtain ⟨buf', hEq, hFree, hCovered⟩ := @ih (patched mem addr sz o buf x)
      (fun bi hbi => hFits bi (List.mem_cons_of_mem _ hbi)) hRest
    -- the others find their bytes untouched by the first one
    have hMoved : rest.map (moved mem addr sz o (patched mem addr sz o buf x)) =
        rest.map (moved mem addr sz o buf) := by
      apply List.map_congr_left
      intro y hy
      unfold moved
      simp only [BreakInstruction.mk.injEq, true_and, and_true]
      funext i
      by_cases hIn : y.Covers mem (y.address + i) ∧ addr ≤ y.address + i ∧
          y.address + i < addr + sz
      · rw [if_pos hIn, if_pos hIn]
        unfold patched
        rw [if_neg]
        rintro ⟨-, -, hCovers⟩
        have hSame : addr + (o + (y.address + i - addr) - o) = y.address + i := by omega
        rw [hSame] at hCovers
        exact hHead y hy _ _ hCovers hIn.1
      · rw [if_neg hIn, if_neg hIn]
    refine ⟨buf', ?_, ?_, ?_⟩
    · unfold writeInstructions
      rw [writeInstruction_eq (hFits x (List.mem_cons_self ..)) hChunk]
      dsimp only
      rw [hEq, hMoved]
      rfl
    · intro k hk
      rw [hFree k fun bi hbi => hk bi (List.mem_cons_of_mem _ hbi)]
      exact if_neg (hk x (List.mem_cons_self ..))
    · intro bi hbi k hLow hHigh hCovers
      rcases List.mem_cons.mp hbi with rfl | hbi
      · rw [hFree k]
        · exact if_pos ⟨hLow, hHigh, hCovers⟩
        · rintro y hy ⟨-, -, hOther⟩
          exact hHead y hy _ _ hCovers hOther
      · exact hCovered bi hbi k hLow hHigh hCovers

/-- Where an instruction is, and whether it is planted. -/
def BreakInstruction.place (bi : BreakInstruction) : Nat × Nat × Nat × Bool :=
  (bi.mem, bi.address, bi.savedSize, bi.planted)

variable {phys clean : Memory}

/-- One chunk of a write: the code and the machine without breakpoints stay in step. -/
theorem Sim.writeChunk (h : Sim insts phys clean)
    (hChunk : addr + sz < 2 ^ 64) :
    ∃ insts' buf', writeInstructions mem addr sz o insts buf = (insts', buf') ∧
      Sim insts' (writeChunk phys mem addr sz o buf') (writeChunk clean mem addr sz o buf) ∧
      (∀ k, (∀ bi ∈ insts, ¬ (o ≤ k ∧ k < o + sz ∧ bi.Covers mem (addr + (k - o)))) →
        buf' k = buf k) ∧
      insts'.map BreakInstruction.place = insts.map BreakInstruction.place := by
  obtain ⟨hSaved, hOpcode, hRest, hFits, hApart⟩ := h
  obtain ⟨buf', hEq, hFree, hCovered⟩ := writeInstructions_spec hFits hApart hChunk
  have hBack {a : Nat} (hLow : addr ≤ a) : addr + (o + (a - addr) - o) = a := by omega
  refine ⟨_, buf', hEq, ⟨?_, ?_, ?_, ?_, ?_⟩, hFree, ?_⟩
  · intro bi' hbi' m a hCovers
    obtain ⟨bi, hbi, rfl⟩ := List.mem_map.mp hbi'
    have hCovers : bi.Covers m a := hCovers
    obtain ⟨-, hMem, hLow, hHigh⟩ := id hCovers
    have hIndex : bi.address + (a - bi.address) = a := by omega
    show (if m = mem ∧ addr ≤ a ∧ a < addr + sz then buf (o + (a - addr)) else clean (m, a)) =
      if bi.Covers mem (bi.address + (a - bi.address)) ∧ addr ≤ bi.address + (a - bi.address) ∧
        bi.address + (a - bi.address) < addr + sz then
        buf (o + (bi.address + (a - bi.address) - addr))
      else bi.savedCode (a - bi.address)
    rw [hIndex]
    by_cases hIn : m = mem ∧ addr ≤ a ∧ a < addr + sz
    · rw [if_pos hIn, if_pos ⟨hIn.1 ▸ hCovers, hIn.2⟩]
    · rw [if_neg hIn, if_neg, hSaved bi hbi m a hCovers]
      rintro ⟨hOther, hRange⟩
      exact hIn ⟨hMem.symm.trans hOther.2.1, hRange⟩
  · intro bi' hbi' m a hCovers
    obtain ⟨bi, hbi, rfl⟩ := List.mem_map.mp hbi'
    have hCovers : bi.Covers m a := hCovers
    show (if m = mem ∧ addr ≤ a ∧ a < addr + sz then buf' (o + (a - addr)) else phys (m, a)) =
      bi.plantedCode (a - bi.address)
    by_cases hIn : m = mem ∧ addr ≤ a ∧ a < addr + sz
    · rw [if_pos hIn, hCovered bi hbi _ (by omega) (by omega), hBack hIn.2.1]
      rw [hBack hIn.2.1, ← hIn.1]
      exact hCovers
    · rw [if_neg hIn]
      exact hOpcode bi hbi m a hCovers
  · intro m a hNone
    show (if m = mem ∧ addr ≤ a ∧ a < addr + sz then buf' (o + (a - addr)) else phys (m, a)) =
      if m = mem ∧ addr ≤ a ∧ a < addr + sz then buf (o + (a - addr)) else clean (m, a)
    have hNone (bi : BreakInstruction) (hbi : bi ∈ insts) : ¬ bi.Covers m a :=
      hNone (moved mem addr sz o buf bi) (List.mem_map_of_mem hbi)
    by_cases hIn : m = mem ∧ addr ≤ a ∧ a < addr + sz
    · rw [if_pos hIn, if_pos hIn]
      apply hFree
      rintro bi hbi ⟨-, -, hCovers⟩
      rw [hBack hIn.2.1, ← hIn.1] at hCovers
      exact hNone bi hbi hCovers
    · rw [if_neg hIn, if_neg hIn]
      exact hRest m a hNone
  · intro bi' hbi' hPlanted
    obtain ⟨bi, hbi, rfl⟩ := List.mem_map.mp hbi'
    exact hFits bi hbi hPlanted
  · rw [List.pairwise_map]
    exact hApart
  · rw [List.map_map]
    rfl

/-- Instructions at the same places cover the same bytes. -/
theorem covers_of_place {insts' : List BreakInstruction}
    (hPlace : insts'.map BreakInstruction.place = insts.map BreakInstruction.place) {m a : Nat}
    (h : ∃ bi ∈ insts', bi.Covers m a) : ∃ bi ∈ insts, bi.Covers m a := by
  obtain ⟨x, hx, hCovers⟩ := h
  obtain ⟨y, hy, hSame⟩ := List.mem_map.mp (hPlace ▸ List.mem_map_of_mem hx)
  refine ⟨y, hy, ?_⟩
  unfold BreakInstruction.Covers at hCovers ⊢
  simp only [BreakInstruction.place, Prod.mk.injEq] at hSame
  rw [hSame.1, hSame.2.1, hSame.2.2.1, hSame.2.2.2]
  exact hCovers

/-- With no active instruction nothing differs. -/
theorem Sim.eq_of_not_active (h : Sim insts phys clean)
    (hNone : ¬ insts.any (·.active) = true) : phys = clean := by
  funext ⟨m, a⟩
  apply h.rest
  intro bi hbi
  apply not_covers_of_not_active
  intro hActive
  exact hNone (List.any_eq_true.mpr ⟨bi, hbi, hActive⟩)

/-- One chunk of a read: what was read from physical memory becomes what would be there. -/
theorem Sim.readChunk (h : Sim insts phys clean)
    (hChunk : addr + sz < 2 ^ 64)
    (hBuf : ∀ k, o ≤ k → k < o + sz → buf k = phys (mem, addr + (k - o))) (k : Nat) :
    insts.foldl (readInstruction mem addr sz o) buf k =
      if o ≤ k ∧ k < o + sz then clean (mem, addr + (k - o)) else buf k := by
  -- after some of the instructions, the bytes of those are right and the others as read
  have hAll : ∀ done rest, done ++ rest = insts → ∀ k,
      (done.foldl (readInstruction mem addr sz o) buf k =
        if o ≤ k ∧ k < o + sz ∧ ∃ bi ∈ done, bi.Covers mem (addr + (k - o)) then
          clean (mem, addr + (k - o))
        else buf k) := by
    intro done
    induction done using List.reverseRecOn with
    | nil =>
      intro rest _ k
      rw [if_neg (by simp)]
      rfl
    | append_singleton done bi ih =>
      intro rest hInsts k
      have hMem : bi ∈ insts := by
        rw [← hInsts]
        simp
      rw [List.foldl_append, List.foldl_cons, List.foldl_nil,
        readInstruction_eq (h.fits bi hMem) hChunk, ih (bi :: rest) (by simpa using hInsts)]
      by_cases hCovers : o ≤ k ∧ k < o + sz ∧ bi.Covers mem (addr + (k - o))
      · rw [if_pos hCovers, if_pos ⟨hCovers.1, hCovers.2.1, bi, by simp, hCovers.2.2⟩]
        exact (h.saved bi hMem _ _ hCovers.2.2).symm
      · rw [if_neg hCovers]
        apply if_congr _ rfl rfl
        constructor
        · rintro ⟨hLow, hHigh, x, hx, hxCovers⟩
          exact ⟨hLow, hHigh, x, List.mem_append_left _ hx, hxCovers⟩
        · rintro ⟨hLow, hHigh, x, hx, hxCovers⟩
          rcases List.mem_append.mp hx with hx | hx
          · exact ⟨hLow, hHigh, x, hx, hxCovers⟩
          · rw [List.mem_singleton.mp hx] at hxCovers
            exact absurd ⟨hLow, hHigh, hxCovers⟩ hCovers
  rw [hAll insts [] (List.append_nil _) k]
  by_cases hIn : o ≤ k ∧ k < o + sz
  · rw [if_pos hIn]
    by_cases hCovered : ∃ bi ∈ insts, bi.Covers mem (addr + (k - o))
    · rw [if_pos ⟨hIn.1, hIn.2, hCovered⟩]
    · rw [if_neg fun hAnd => hCovered hAnd.2.2, hBuf k hIn.1 hIn.2]
      apply h.rest
      intro bi hbi hCovers
      exact hCovered ⟨bi, hbi, hCovers⟩
  · rw [if_neg hIn, if_neg fun hAnd => hIn ⟨hAnd.1, hAnd.2.1⟩]

/-! ## The loops over the chunks -/

variable {canon : Nat → Nat → Option Block} {ctx address size : Nat} {phys clean : Memory}

theorem writeBytes_add (memory : Memory) (n m : Nat) :
    writeBytes canon memory ctx address o buf (n + m) =
      writeBytes canon (writeBytes canon memory ctx address o buf n) ctx (address + n) (o + n)
        buf m := by
  induction n generalizing memory address o with
  | zero => rw [Nat.zero_add]; rfl
  | succ n ih =>
    rw [Nat.succ_add, writeBytes, writeBytes, ih, Nat.add_right_comm, Nat.add_right_comm o]
    rfl

variable {memory : Memory}

theorem writeBytes_congr {buf' : Nat → UInt8}
    (h : ∀ k, o ≤ k → k < o + size → buf k = buf' k) :
    writeBytes canon memory ctx address o buf size =
      writeBytes canon memory ctx address o buf' size := by
  induction size generalizing memory address o with
  | zero => rfl
  | succ size ih =>
    rw [writeBytes, writeBytes, h o (Nat.le_refl _) (by omega)]
    exact ih fun k hLow hHigh => h k (by omega) (by omega)

/-- Only the bytes of the range are written. -/
theorem writeBytes_frame {p : Nat × Nat}
    (h : ∀ k < size, ∀ b, canon ctx (address + k) = some b → (b.mem, b.addr) ≠ p) :
    writeBytes canon memory ctx address o buf size p = memory p := by
  induction size generalizing memory address o with
  | zero => rfl
  | succ size ih =>
    rw [writeBytes, ih fun k hk b hb => h (k + 1) (by omega) b (by rwa [Nat.add_right_comm] at hb)]
    cases hb : canon ctx address with
    | none => rfl
    | some b => exact Function.update_of_ne (h 0 (Nat.succ_pos _) b hb).symm _ _

/-- Two memories in which a byte is the same, and gets the same. -/
theorem writeBytes_agree {p : Nat × Nat} {memory' : Memory} {buf' : Nat → UInt8}
    (hp : memory p = memory' p)
    (h : ∀ k < size, ∀ b, canon ctx (address + k) = some b → (b.mem, b.addr) = p →
      buf (o + k) = buf' (o + k)) :
    writeBytes canon memory ctx address o buf size p =
      writeBytes canon memory' ctx address o buf' size p := by
  induction size generalizing memory memory' address o with
  | zero => exact hp
  | succ size ih =>
    rw [writeBytes, writeBytes]
    refine ih ?_ fun k hk b hb hSame => ?_
    · cases hb : canon ctx address with
      | none => exact hp
      | some b =>
        dsimp only
        by_cases hSame : (b.mem, b.addr) = p
        · rw [hSame, Function.update_self, Function.update_self]
          exact h 0 (Nat.succ_pos _) b hb hSame
        · rw [Function.update_of_ne (Ne.symm hSame), Function.update_of_ne (Ne.symm hSame), hp]
    · have hIndex := h (k + 1) (by omega) b (by rwa [Nat.add_right_comm] at hb) hSame
      rwa [← Nat.add_assoc, Nat.add_right_comm] at hIndex

/-- The canonical addresses of a range follow each other. -/
def Contiguous (canon : Nat → Nat → Option Block) (ctx address mem addr size : Nat) : Prop :=
  ∀ k < size, ∃ b, canon ctx (address + k) = some b ∧ b.mem = mem ∧ b.addr = addr + k

theorem writeBytes_chunk (h : Contiguous canon ctx address mem addr size) :
    writeBytes canon memory ctx address o buf size = writeChunk memory mem addr size o buf := by
  induction size generalizing memory address addr o with
  | zero =>
    funext p
    unfold writeChunk
    rw [if_neg (by omega)]
    rfl
  | succ size ih =>
    obtain ⟨b, hb, hMem, hAddr⟩ := h 0 (Nat.succ_pos _)
    rw [Nat.add_zero] at hb hAddr
    have hNext : Contiguous canon ctx (address + 1) mem (addr + 1) size := by
      intro k hk
      obtain ⟨b', hb', hMem', hAddr'⟩ := h (k + 1) (Nat.succ_lt_succ hk)
      exact ⟨b', by rw [Nat.add_right_comm]; exact hb', hMem', by omega⟩
    rw [writeBytes, hb]
    dsimp only
    rw [ih hNext, hMem, hAddr]
    funext p
    unfold writeChunk
    by_cases hFirst : p = (mem, addr)
    · subst hFirst
      rw [if_neg (by omega), if_pos (by simp), Function.update_self]
      simp
    · by_cases hIn : p.1 = mem ∧ addr + 1 ≤ p.2 ∧ p.2 < addr + 1 + size
      · rw [if_pos hIn, if_pos (by omega)]
        congr 1
        omega
      · have hNot : ¬ (p.1 = mem ∧ addr ≤ p.2 ∧ p.2 < addr + (size + 1)) := by
          rintro ⟨hm, hLow, hHigh⟩
          have hAddr : p.2 ≠ addr := fun hEq => hFirst (Prod.ext hm hEq)
          exact hIn ⟨hm, by omega, by omega⟩
        rw [if_neg hIn, if_neg hNot, Function.update_of_ne hFirst]

theorem byteAt_contiguous (h : Contiguous canon ctx address mem addr size)
    {k : Nat} (hk : k < size) : byteAt canon memory ctx (address + k) = memory (mem, addr + k) := by
  obtain ⟨b, hb, hMem, hAddr⟩ := h k hk
  unfold byteAt
  rw [hb]
  dsimp only
  rw [hMem, hAddr]

/-- The first chunk of a range that can be accessed. -/
theorem chunk_spec (hCanon : Canonical canon) (hAcc : Accessible canon ctx address (size + 1))
    (hTop : BelowTop canon ctx address (size + 1)) :
    ∃ b sz, canon ctx address = some b ∧ chunkSize b (size + 1) = sz ∧ 0 < sz ∧ sz ≤ size + 1 ∧
      Contiguous canon ctx address b.mem b.addr sz ∧ b.addr + sz < 2 ^ 64 ∧
      wrap (address + sz) = address + sz ∧
      Accessible canon ctx (address + sz) (size + 1 - sz) ∧
      BelowTop canon ctx (address + sz) (size + 1 - sz) := by
  obtain ⟨hEnd, hSome⟩ := hAcc
  obtain ⟨b, hb⟩ := Option.isSome_iff_exists.mp (hSome 0 (Nat.succ_pos _))
  rw [Nat.add_zero] at hb
  obtain ⟨hBase, hAddr, hBlock, hSmall⟩ := hCanon.inside _ _ _ hb
  have hRoom : wrap (b.base + b.size + 2 ^ 64 - b.addr) = b.base + b.size - b.addr := by
    have hOver : b.base + b.size + 2 ^ 64 - b.addr = (b.base + b.size - b.addr) + 2 ^ 64 := by omega
    unfold wrap
    rw [hOver, Nat.add_mod_right, Nat.mod_eq_of_lt (by omega)]
  have hSz : chunkSize b (size + 1) = min (size + 1) (b.base + b.size - b.addr) := by
    unfold chunkSize
    rw [hRoom]
  obtain ⟨sz, hEq⟩ : ∃ sz, chunkSize b (size + 1) = sz := ⟨_, rfl⟩
  rw [hEq] at hSz
  have hCont : Contiguous canon ctx address b.mem b.addr sz := by
    intro k hk
    exact hCanon.contiguous _ _ _ hb k (by omega) (by omega)
  refine ⟨b, sz, hb, hEq, by omega, by omega, hCont, ?_, wrap_of_lt (by omega),
    ⟨by omega, ?_⟩, ?_⟩
  · obtain ⟨b', hb', -, hAddr'⟩ := hCont (sz - 1) (by omega)
    have := hTop (sz - 1) (by omega) b' hb'
    omega
  · intro k hk
    have := hSome (sz + k) (by omega)
    rwa [← Nat.add_assoc] at this
  · intro k hk b' hb'
    rw [Nat.add_assoc] at hb'
    exact hTop (sz + k) (by omega) b' hb'

/-- Without an active instruction the code does what the machine without breakpoints does. -/
theorem Sim.of_not_active (h : Sim insts phys clean) (hNone : ¬ insts.any (·.active) = true)
    (memory : Memory) : Sim insts memory memory := by
  have hNot (bi : BreakInstruction) (hbi : bi ∈ insts) (m a : Nat) : ¬ bi.Covers m a := by
    apply not_covers_of_not_active
    intro hActive
    exact hNone (List.any_eq_true.mpr ⟨bi, hbi, hActive⟩)
  exact ⟨fun bi hbi m a hCovers => absurd hCovers (hNot bi hbi m a),
    fun bi hbi m a hCovers => absurd hCovers (hNot bi hbi m a), fun _ _ _ => rfl, h.fits, h.apart⟩

/-- Writing: the new bytes are where the machine without breakpoints has them. -/
theorem checkWrite_spec (hCanon : Canonical canon) {fuel : Nat} (hFuel : size ≤ fuel)
    (hAcc : Accessible canon ctx address size) (hTop : BelowTop canon ctx address size)
    (h : Sim insts phys clean) :
    ∃ insts' buf', checkWrite canon fuel ctx address o size insts buf = some (insts', buf') ∧
      Sim insts' (writeBytes canon phys ctx address o buf' size)
        (writeBytes canon clean ctx address o buf size) ∧
      (∀ k, (∀ b, o ≤ k → k < o + size → canon ctx (address + (k - o)) = some b →
        ∀ bi ∈ insts, ¬ bi.Covers b.mem b.addr) → buf' k = buf k) ∧
      insts'.map BreakInstruction.place = insts.map BreakInstruction.place := by
  induction fuel generalizing address o size insts buf phys clean with
  | zero =>
    obtain rfl : size = 0 := by omega
    exact ⟨insts, buf, by rw [checkWrite], h, fun _ _ => rfl, rfl⟩
  | succ fuel ih =>
    cases size with
    | zero => exact ⟨insts, buf, by rw [checkWrite], h, fun _ _ => rfl, rfl⟩
    | succ size =>
      rw [checkWrite]
      by_cases hActive : insts.any (·.active) = true
      -- the range is cut at the end of a canonical block: a chunk, and the rest by induction
      · obtain ⟨b, sz, hb, hSz, hPos, hLe, hCont, hChunk, hWrap, hAcc', hTop'⟩ :=
          chunk_spec hCanon hAcc hTop
        obtain ⟨insts₁, buf₁, hEq₁, hSim₁, hFree₁, hPlace₁⟩ :=
          h.writeChunk (o := o) hChunk
        obtain ⟨insts₂, buf₂, hEq₂, hSim₂, hFree₂, hPlace₂⟩ :=
          ih (o := o + sz) (by omega) hAcc' hTop' hSim₁
        have hSame₁ (k : Nat) (hk : o + sz ≤ k) : buf₁ k = buf k :=
          hFree₁ k fun bi _ hIn => by omega
        have hSame₂ (k : Nat) (hk : k < o + sz) : buf₂ k = buf₁ k :=
          hFree₂ k fun b hLow => absurd hLow (by omega)
        refine ⟨insts₂, buf₂, ?_, ?_, ?_, hPlace₂.trans hPlace₁⟩
        · rw [if_pos hActive, hb, Option.bind_some]
          simp only [hSz, hWrap]
          rw [hEq₁]
          exact hEq₂
        · -- the bytes of the first chunk are not touched any more
          have hSplit : size + 1 = sz + (size + 1 - sz) := by omega
          rw [hSplit, writeBytes_add, writeBytes_add, writeBytes_chunk hCont,
            writeBytes_chunk hCont]
          have hFirst : writeChunk phys b.mem b.addr sz o buf₂ =
              writeChunk phys b.mem b.addr sz o buf₁ := by
            funext p
            unfold writeChunk
            by_cases hIn : p.1 = b.mem ∧ b.addr ≤ p.2 ∧ p.2 < b.addr + sz
            · rw [if_pos hIn, if_pos hIn]
              exact hSame₂ _ (by omega)
            · rw [if_neg hIn, if_neg hIn]
          have hRest : writeBytes canon (writeChunk clean b.mem b.addr sz o buf) ctx (address + sz)
              (o + sz) buf (size + 1 - sz) =
              writeBytes canon (writeChunk clean b.mem b.addr sz o buf) ctx (address + sz)
              (o + sz) buf₁ (size + 1 - sz) := by
            apply writeBytes_congr
            intro k hLow _
            exact (hSame₁ k hLow).symm
          rw [hFirst, hRest]
          exact hSim₂
        · intro k hNone
          rcases Nat.lt_or_ge k (o + sz) with hlt | hge
          · rw [hSame₂ k hlt]
            refine hFree₁ k fun bi hbi ⟨hLow, _, hCovers⟩ => ?_
            obtain ⟨b', hb', hMem, hAddr⟩ := hCont (k - o) (by omega)
            exact hNone b' hLow (by omega) hb' bi hbi (by rwa [hMem, hAddr])
          · rw [← hSame₁ k hge]
            refine hFree₂ k fun b' _ hHigh hb' bi hbi hCovers => ?_
            obtain ⟨x, hx, hx'⟩ := covers_of_place hPlace₁ ⟨bi, hbi, hCovers⟩
            have hIndex : address + sz + (k - (o + sz)) = address + (k - o) := by omega
            rw [hIndex] at hb'
            exact hNone b' (by omega) (by omega) hb' x hx hx'
      -- no instruction is planted
      · rw [if_neg hActive, h.eq_of_not_active hActive]
        exact ⟨insts, buf, rfl, h.of_not_active hActive _, fun _ _ => rfl, rfl⟩

/-- A write that fails behind `done` bytes, where no instruction is. -/
theorem Sim.stopped {insts' : List BreakInstruction} {buf' : Nat → UInt8} {done : Nat}
    (h : Sim insts phys clean)
    (hAll : Sim insts' (writeBytes canon phys ctx address 0 buf' size)
      (writeBytes canon clean ctx address 0 buf size))
    (hFree : ∀ k, (∀ b, 0 ≤ k → k < 0 + size → canon ctx (address + (k - 0)) = some b →
      ∀ bi ∈ insts, ¬ bi.Covers b.mem b.addr) → buf' k = buf k)
    (hPlace : insts'.map BreakInstruction.place = insts.map BreakInstruction.place)
    (hDone : done ≤ size)
    (hTail : ∀ k < size, done ≤ k → ∀ b ∈ canon ctx (address + k), ∀ bi ∈ insts,
      ¬ bi.Covers b.mem b.addr) :
    Sim insts' (writeBytes canon phys ctx address 0 buf' done)
      (writeBytes canon clean ctx address 0 buf done) := by
  -- what is missing does not touch the bytes of the instructions
  have hKept {bi : BreakInstruction} (hbi : bi ∈ insts') {m a : Nat} (hCovers : bi.Covers m a)
      (memory : Memory) (buf : Nat → UInt8) :
        writeBytes canon memory ctx address 0 buf size (m, a) =
        writeBytes canon memory ctx address 0 buf done (m, a) := by
    obtain ⟨rest, rfl⟩ := Nat.exists_eq_add_of_le hDone
    rw [writeBytes_add]
    refine writeBytes_frame fun k hk b hb hSame => ?_
    cases hSame
    obtain ⟨x, hx, hx'⟩ := covers_of_place hPlace ⟨bi, hbi, hCovers⟩
    rw [Nat.add_assoc] at hb
    exact hTail (done + k) (by omega) (Nat.le_add_right ..) b hb x hx hx'
  refine ⟨fun bi hbi m a hCovers => ?_, fun bi hbi m a hCovers => ?_, fun m a hNone => ?_,
    hAll.fits, hAll.apart⟩
  · rw [← hKept hbi hCovers]
    exact hAll.saved bi hbi m a hCovers
  · rw [← hKept hbi hCovers]
    exact hAll.opcode bi hbi m a hCovers
  · have hNone (bi : BreakInstruction) (hbi : bi ∈ insts) (hCovers : bi.Covers m a) : False := by
      obtain ⟨x, hx, hx'⟩ := covers_of_place hPlace.symm ⟨bi, hbi, hCovers⟩
      exact hNone x hx hx'
    refine writeBytes_agree (h.rest m a hNone) fun k _ b hb hSame => ?_
    cases hSame
    refine hFree _ fun b' _ _ hb' bi hbi hCovers => ?_
    rw [Nat.sub_zero, Nat.zero_add, hb] at hb'
    cases hb'
    exact hNone bi hbi hCovers

/-- Reading: the bytes are those of the machine without breakpoints. -/
theorem checkRead_spec (hCanon : Canonical canon) {fuel : Nat} (hFuel : size ≤ fuel)
    (hAcc : Accessible canon ctx address size) (hTop : BelowTop canon ctx address size)
    (h : Sim insts phys clean)
    (hBuf : ∀ k, o ≤ k → k < o + size → buf k = byteAt canon phys ctx (address + (k - o))) :
    ∃ buf', checkRead canon insts fuel ctx address o size buf = some buf' ∧
      (∀ k, o ≤ k → k < o + size → buf' k = byteAt canon clean ctx (address + (k - o))) ∧
      ∀ k, k < o ∨ o + size ≤ k → buf' k = buf k := by
  induction fuel generalizing address o size buf with
  | zero =>
    obtain rfl : size = 0 := by omega
    exact ⟨buf, by rw [checkRead], fun k _ _ => by omega, fun _ _ => rfl⟩
  | succ fuel ih =>
    cases size with
    | zero => exact ⟨buf, by rw [checkRead], fun k _ _ => by omega, fun _ _ => rfl⟩
    | succ size =>
      rw [checkRead]
      by_cases hActive : insts.any (·.active) = true
      · obtain ⟨b, sz, hb, hSz, hPos, hLe, hCont, hChunk, hWrap, hAcc', hTop'⟩ :=
          chunk_spec hCanon hAcc hTop
        have hRaw : ∀ k, o ≤ k → k < o + sz → buf k = phys (b.mem, b.addr + (k - o)) := by
          intro k hLow hHigh
          rw [hBuf k hLow (by omega), byteAt_contiguous hCont (by omega)]
        have hFirst := h.readChunk hChunk hRaw
        have hNext : ∀ k, o + sz ≤ k → k < o + sz + (size + 1 - sz) →
            insts.foldl (readInstruction b.mem b.addr sz o) buf k =
              byteAt canon phys ctx (address + sz + (k - (o + sz))) := by
          intro k hLow hHigh
          rw [hFirst k, if_neg (by omega), hBuf k (by omega) (by omega)]
          congr 1
          omega
        obtain ⟨buf', hEq, hRead, hSame⟩ := ih (by omega) hAcc' hTop' hNext
        refine ⟨buf', ?_, ?_, ?_⟩
        · rw [if_pos hActive, hb, Option.bind_some]
          simp only [hSz, hWrap]
          exact hEq
        · intro k hLow hHigh
          rcases Nat.lt_or_ge k (o + sz) with hlt | hge
          · rw [hSame k (Or.inl hlt), hFirst k, if_pos ⟨hLow, hlt⟩,
              byteAt_contiguous hCont (by omega)]
          · rw [hRead k hge (by omega)]
            congr 1
            omega
        · intro k hk
          rw [hSame k (by omega), hFirst k, if_neg (by omega)]
      · rw [if_neg hActive, ← h.eq_of_not_active hActive]
        exact ⟨buf, rfl, hBuf, fun _ _ => rfl⟩

/-! ## Planting and removing -/

/-- The order of the instructions does not matter. -/
theorem Sim.perm {insts' : List BreakInstruction} (h : Sim insts phys clean)
    (hPerm : insts.Perm insts') : Sim insts' phys clean := by
  refine ⟨fun bi hbi => h.saved bi (hPerm.mem_iff.mpr hbi),
    fun bi hbi => h.opcode bi (hPerm.mem_iff.mpr hbi), ?_,
    fun bi hbi => h.fits bi (hPerm.mem_iff.mpr hbi), ?_⟩
  · intro m a hNone
    exact h.rest m a fun bi hbi => hNone bi (hPerm.mem_iff.mp hbi)
  · refine (hPerm.pairwise_iff ?_).mp h.apart
    intro x y hxy m a hy hx
    exact hxy m a hx hy

variable {others : List BreakInstruction}

/-- An instruction that is not planted may come, go and change. -/
theorem sim_cons_unplanted (hNot : bi.planted = false) :
    Sim (bi :: others) phys clean ↔ Sim others phys clean := by
  have hNone (m a : Nat) : ¬ bi.Covers m a := by
    rintro ⟨hPlanted, -⟩
    rw [hNot] at hPlanted
    cases hPlanted
  constructor
  · intro h
    refine ⟨fun x hx => h.saved x (List.mem_cons_of_mem _ hx),
      fun x hx => h.opcode x (List.mem_cons_of_mem _ hx), ?_,
      fun x hx => h.fits x (List.mem_cons_of_mem _ hx), h.apart.of_cons⟩
    intro m a hOthers
    apply h.rest
    intro x hx
    rcases List.mem_cons.mp hx with rfl | hx
    · exact hNone m a
    · exact hOthers x hx
  · intro h
    refine ⟨?_, ?_, ?_, ?_, ?_⟩
    · intro x hx m a hCovers
      rcases List.mem_cons.mp hx with rfl | hx
      · exact absurd hCovers (hNone m a)
      · exact h.saved x hx m a hCovers
    · intro x hx m a hCovers
      rcases List.mem_cons.mp hx with rfl | hx
      · exact absurd hCovers (hNone m a)
      · exact h.opcode x hx m a hCovers
    · intro m a hAll
      exact h.rest m a fun x hx => hAll x (List.mem_cons_of_mem _ hx)
    · intro x hx hPlanted
      rcases List.mem_cons.mp hx with rfl | hx
      · rw [hNot] at hPlanted
        cases hPlanted
      · exact h.fits x hx hPlanted
    · refine List.pairwise_cons.mpr ⟨?_, h.apart⟩
      intro x hx m a hCovers
      exact absurd hCovers (hNone m a)

/-- Planting: the opcode goes where no other one is, what was there is saved. -/
theorem Sim.plant (h : Sim others phys clean)
    (hPlanted : bi.planted = true) (hFits : bi.address + bi.savedSize < 2 ^ 64)
    (hSaved : ∀ k < bi.savedSize, bi.savedCode k = phys (bi.mem, bi.address + k))
    (hApart : ∀ other ∈ others, Apart bi.mem bi.address bi.savedSize other) :
    Sim (bi :: others) (BreakpointMemory.writeChunk phys bi.mem bi.address bi.savedSize 0
      bi.plantedCode) clean := by
  have hFree (other : BreakInstruction) (hOther : other ∈ others) (m a : Nat)
      (hCovers : bi.Covers m a) : ¬ other.Covers m a := by
    rintro ⟨hp, hm, hLow, hHigh⟩
    obtain ⟨-, hMem, hLow', hHigh'⟩ := hCovers
    have := hApart other hOther hp (hm.trans hMem.symm)
    omega
  have hIff (m a : Nat) : bi.Covers m a ↔
      m = bi.mem ∧ bi.address ≤ a ∧ a < bi.address + bi.savedSize := by
    unfold BreakInstruction.Covers
    rw [eq_comm (a := bi.mem)]
    simp [hPlanted]
  refine ⟨?_, ?_, ?_, ?_, ?_⟩
  · intro x hx m a hCovers
    rcases List.mem_cons.mp hx with rfl | hx
    · rw [← h.rest m a fun other hOther => hFree other hOther m a hCovers]
      obtain ⟨rfl, hLow, hHigh⟩ := (hIff m a).mp hCovers
      rw [hSaved _ (by omega)]
      congr 2
      omega
    · exact h.saved x hx m a hCovers
  · intro x hx m a hCovers
    unfold BreakpointMemory.writeChunk
    rcases List.mem_cons.mp hx with rfl | hx
    · rw [if_pos ((hIff m a).mp hCovers), Nat.zero_add]
    · rw [if_neg]
      · exact h.opcode x hx m a hCovers
      · intro hIn
        exact hFree x hx m a ((hIff m a).mpr hIn) hCovers
  · intro m a hNone
    unfold BreakpointMemory.writeChunk
    rw [if_neg]
    · exact h.rest m a fun other hOther => hNone other (List.mem_cons_of_mem _ hOther)
    · intro hIn
      exact hNone bi (List.mem_cons_self ..) ((hIff m a).mpr hIn)
  · intro x hx hp
    rcases List.mem_cons.mp hx with rfl | hx
    · exact hFits
    · exact h.fits x hx hp
  · exact List.pairwise_cons.mpr ⟨fun x hx m a => hFree x hx m a, h.apart⟩

/-- Removing: the saved code goes back. -/
theorem Sim.remove (h : Sim (bi :: others) phys clean)
    (hPlanted : bi.planted = true) :
    Sim others (BreakpointMemory.writeChunk phys bi.mem bi.address bi.savedSize 0 bi.savedCode)
      clean := by
  obtain ⟨hHead, hApart⟩ := List.pairwise_cons.mp h.apart
  have hCovers {m a : Nat} (hIn : m = bi.mem ∧ bi.address ≤ a ∧ a < bi.address + bi.savedSize) :
      bi.Covers m a := ⟨hPlanted, hIn.1.symm, hIn.2⟩
  refine ⟨fun x hx => h.saved x (List.mem_cons_of_mem _ hx), ?_, ?_,
    fun x hx => h.fits x (List.mem_cons_of_mem _ hx), hApart⟩
  · intro x hx m a hOther
    unfold BreakpointMemory.writeChunk
    rw [if_neg]
    · exact h.opcode x (List.mem_cons_of_mem _ hx) m a hOther
    · intro hIn
      exact hHead x hx m a (hCovers hIn) hOther
  · intro m a hNone
    unfold BreakpointMemory.writeChunk
    by_cases hIn : m = bi.mem ∧ bi.address ≤ a ∧ a < bi.address + bi.savedSize
    · rw [if_pos hIn, Nat.zero_add]
      exact (h.saved bi (List.mem_cons_self ..) m a (hCovers hIn)).symm
    · rw [if_neg hIn]
      apply h.rest
      intro x hx hOther
      rcases List.mem_cons.mp hx with rfl | hx
      · exact hIn ⟨hOther.2.1.symm, hOther.2.2⟩
      · exact hNone x hx hOther

/-! ## Every run -/

/-- The state of the code and the memory of the machine without breakpoints; planted
instructions are at canonical addresses. -/
structure Hidden (canon : Nat → Nat → Option Block) (s : State) (clean : Memory) : Prop where
  sim : Sim s.instructions s.phys clean
  canonical : ∀ bi ∈ s.instructions, bi.planted = true →
    AtCanonical canon bi.mem bi.address bi.savedSize

theorem AtCanonical.contiguous (h : AtCanonical canon mem addr size) :
    Contiguous canon mem addr mem addr size := by
  intro k hk
  obtain ⟨b, hb, hEq⟩ := Option.map_eq_some_iff.mp (h.2 k hk)
  exact ⟨b, hb, congrArg Prod.fst hEq, congrArg Prod.snd hEq⟩

/-- One element of the list, and what `set` and `eraseIdx` make of the list. -/
theorem split_at (h : insts[n]? = some bi) :
    ∃ l₁ l₂, insts = l₁ ++ bi :: l₂ ∧ (∀ x, insts.set n x = l₁ ++ x :: l₂) ∧
      insts.eraseIdx n = l₁ ++ l₂ := by
  obtain ⟨hn, hGet⟩ := List.getElem?_eq_some_iff.mp h
  refine ⟨insts.take n, insts.drop (n + 1), ?_, ?_, List.eraseIdx_eq_take_drop_succ ..⟩
  · rw [← hGet, ← List.drop_eq_getElem_cons hn, List.take_append_drop]
  · intro x
    exact List.set_eq_take_append_cons_drop.trans (if_pos hn)

/-- The log is accepted by the machine without breakpoints. -/
abbrev Follows (canon : Nat → Nat → Option Block) (phys₀ : Memory) : State → Memory → Prop :=
  Tracks State.log (plainStep canon) (Hidden canon) phys₀

variable {phys₀ : Memory} {s : State}

theorem follows_plant (h : Follows canon phys₀ s clean) {encoding : List UInt8} {io : Option Nat}
    (hAllowed : Allowed canon s (.plant n encoding io))
    (hClear : Clear canon s (.plant n encoding io)) :
    ∃ s', plantInstruction canon s n encoding io = some s' ∧ Follows canon phys₀ s' clean := by
  obtain ⟨bi, hbi, hNot, hPos, hMax, hCanonical, -⟩ := hAllowed
  have hApart := hClear.2 bi hbi
  obtain ⟨hSim, hAll⟩ := h.related
  obtain ⟨l₁, l₂, hList, hSet, -⟩ := split_at hbi
  have hOthers : Sim (l₁ ++ l₂) s.phys clean := by
    rw [hList] at hSim
    exact (sim_cons_unplanted hNot).mp (hSim.perm List.perm_middle)
  have hMem {x : BreakInstruction} (hx : x ∈ l₁ ++ l₂) : x ∈ s.instructions := by
    rw [hList]
    exact List.perm_middle.symm.subset (List.mem_cons_of_mem _ hx)
  -- an instruction that is not planted leaves memory as it is
  have hLeft {x : BreakInstruction} (hx : x.planted = false) :
      Hidden canon { s with instructions := l₁ ++ x :: l₂ } clean := by
    refine ⟨(((sim_cons_unplanted hx).mpr hOthers).perm List.perm_middle.symm), fun y hy hp => ?_⟩
    rcases List.mem_cons.mp (List.perm_middle.subset hy) with rfl | hy
    · rw [hx] at hp
      cases hp
    · exact hAll y (hMem hy) hp
  unfold plantInstruction
  rw [hbi, Option.bind_some, if_pos ⟨by simp [hNot], hPos, hMax⟩]
  cases io with
  | none =>
    dsimp only
    rw [hSet]
    exact ⟨_, rfl, h.silent rfl (hLeft hNot)⟩
  | some done =>
  dsimp only
  rw [hSet]
  rcases hClear.1 done rfl with rfl | rfl
  · exact ⟨_, rfl, h.silent rfl (hLeft (decide_eq_false (by omega)))⟩
  rw [decide_eq_true rfl]
  generalize hNew : (⟨bi.mem, bi.address, encoding.length, readRaw canon s.phys bi.mem bi.address,
    fun k => encoding.getD k 0, true⟩ : BreakInstruction) = bi'
  have hSim' : Sim (bi' :: (l₁ ++ l₂)) (BreakpointMemory.writeChunk s.phys bi'.mem bi'.address
      bi'.savedSize 0 bi'.plantedCode) clean := by
    refine hOthers.plant (by rw [← hNew]) (by rw [← hNew]; exact hCanonical.1) ?_ ?_
    · intro k hk
      rw [← hNew] at hk ⊢
      exact byteAt_contiguous hCanonical.contiguous hk
    · intro other hOther
      rw [← hNew]
      exact hApart other (hMem hOther)
  refine ⟨_, rfl, h.silent rfl ⟨?_, ?_⟩⟩
  · have hWrite : writeBytes canon s.phys bi.mem bi.address 0 (fun k => encoding.getD k 0)
        encoding.length = BreakpointMemory.writeChunk s.phys bi'.mem bi'.address bi'.savedSize 0
        bi'.plantedCode := by
      rw [← hNew]
      exact writeBytes_chunk hCanonical.contiguous
    rw [hWrite]
    exact hSim'.perm List.perm_middle.symm
  · intro x hx hPlanted
    rcases List.mem_cons.mp (List.perm_middle.subset hx) with rfl | hx
    · rw [← hNew]
      exact hCanonical
    · exact hAll x (hMem hx) hPlanted

theorem follows_remove (h : Follows canon phys₀ s clean) {io : Option Nat}
    (hAllowed : Allowed canon s (.remove n io)) (hClear : Clear canon s (.remove n io)) :
    ∃ s', removeInstruction canon s n io = some s' ∧ Follows canon phys₀ s' clean := by
  obtain ⟨bi, hbi, hPlanted, -⟩ := hAllowed
  obtain ⟨hSim, hAll⟩ := h.related
  obtain ⟨l₁, l₂, hList, hSet, -⟩ := split_at hbi
  have hbiMem : bi ∈ s.instructions := by
    rw [hList]
    simp
  have hMem {x : BreakInstruction} (hx : x ∈ l₁ ++ l₂) : x ∈ s.instructions := by
    rw [hList]
    exact List.perm_middle.symm.subset (List.mem_cons_of_mem _ hx)
  have hCanonical := hAll bi hbiMem hPlanted
  have hStill : ∀ i < bi.savedSize, readRaw canon s.phys bi.mem bi.address i =
      bi.plantedCode i := by
    intro i hi
    rw [readRaw, byteAt_contiguous hCanonical.contiguous hi,
      hSim.opcode bi hbiMem bi.mem _ ⟨hPlanted, rfl, Nat.le_add_right .., by omega⟩,
      Nat.add_sub_cancel_left]
  unfold removeInstruction
  rw [hbi, Option.bind_some, if_pos hPlanted]
  cases io with
  | none => exact ⟨s, rfl, h⟩
  | some done =>
  dsimp only
  rw [if_pos hStill]
  by_cases hWhole : done = bi.savedSize
  swap
  · -- nothing is written, and the instruction is still planted
    have hNone : done = 0 := (hClear bi hbi done rfl).resolve_right hWhole
    have hSelf : { bi with planted := decide (done ≠ bi.savedSize) } = bi := by
      rw [decide_eq_true hWhole, ← hPlanted]
    rw [hSelf, hNone, hSet, ← hList]
    exact ⟨s, rfl, h⟩
  subst hWhole
  rw [hSet, decide_eq_false (not_not_intro rfl)]
  refine ⟨_, rfl, h.silent rfl ⟨?_, ?_⟩⟩
  · rw [writeBytes_chunk hCanonical.contiguous]
    rw [hList] at hSim
    refine Sim.perm ?_ List.perm_middle.symm
    exact (sim_cons_unplanted rfl).mpr ((hSim.perm List.perm_middle).remove hPlanted)
  · intro x hx hp
    rcases List.mem_cons.mp (List.perm_middle.subset hx) with rfl | hx
    · cases hp
    · exact hAll x (hMem hx) hp

theorem follows_read (hCanon : Canonical canon) (h : Follows canon phys₀ s clean)
    (hAllowed : Allowed canon s (.read ctx address size))
    (hClear : Clear canon s (.read ctx address size)) :
    ∃ s', contextReadMem canon s ctx address size = some s' ∧ Follows canon phys₀ s' clean := by
  obtain ⟨hSim, hAll⟩ := h.related
  unfold contextReadMem readRaw
  by_cases hEnd : 2 ^ 64 ≤ address + size
  · exact ⟨s, if_pos hEnd, h⟩
  rw [if_neg hEnd]
  have hAcc : Accessible canon ctx address size := hAllowed.resolve_left hEnd
  obtain ⟨buf', hEq, hRead, -⟩ := checkRead_spec (o := 0) hCanon (Nat.le_refl _) hAcc
    (hClear hAcc.1) hSim fun _ _ _ => rfl
  simp only [Nat.sub_zero] at hEq hRead
  rw [hEq]
  refine ⟨_, rfl, h.append rfl ?_ ⟨hSim, hAll⟩⟩
  rw [run_cons, plainStep, List.length_map, List.length_range, if_pos]
  · rfl
  · apply List.map_congr_left
    intro k hk
    exact hRead k (Nat.zero_le _) (by simpa using hk)

theorem follows_write (hCanon : Canonical canon) (h : Follows canon phys₀ s clean)
    {bytes : List UInt8} {done : Nat} (hAllowed : Allowed canon s (.write ctx address bytes done))
    (hClear : Clear canon s (.write ctx address bytes done)) :
    ∃ s' clean', contextWriteMem canon s ctx address bytes done = some s' ∧
      Follows canon phys₀ s' clean' := by
  obtain ⟨hSim, hAll⟩ := h.related
  obtain ⟨hDone, hAcc⟩ := hAllowed
  unfold contextWriteMem
  by_cases hEnd : 2 ^ 64 ≤ address + bytes.length
  · exact ⟨s, clean, if_pos hEnd, h⟩
  rw [if_neg hEnd]
  have hAcc : Accessible canon ctx address bytes.length := hAcc.resolve_left hEnd
  obtain ⟨hTop, hReached⟩ := hClear hAcc.1
  obtain ⟨insts', buf', hEq, hSim', hFree, hPlace⟩ :=
    checkWrite_spec (o := 0) hCanon (Nat.le_refl _) hAcc hTop hSim
  have hStopped := hSim.stopped hSim' hFree hPlace hDone hReached
  have hTaken : plainStep canon clean (.write ctx address (bytes.take done)) =
      some (writeBytes canon clean ctx address 0 (fun k => bytes.getD k 0) done) := by
    rw [plainStep, List.length_take, Nat.min_eq_left hDone]
    refine congrArg some (writeBytes_congr fun k _ hk => ?_)
    rw [List.getD_eq_getElem?_getD, List.getD_eq_getElem?_getD, List.getElem?_take_of_lt (by omega)]
  rw [hEq]
  refine ⟨_, _, rfl, h.append rfl (by rw [run_cons, hTaken]; rfl) ⟨hStopped, ?_⟩⟩
  intro x hx hPlanted
  have hxPlace : x.place ∈ s.instructions.map BreakInstruction.place := by
    rw [← hPlace]
    exact List.mem_map_of_mem hx
  obtain ⟨y, hy, hSame⟩ := List.mem_map.mp hxPlace
  obtain ⟨hm, hAddr, hSize, hp⟩ : y.mem = x.mem ∧ y.address = x.address ∧
      y.savedSize = x.savedSize ∧ y.planted = x.planted := by
    simpa [BreakInstruction.place] using hSame
  rw [← hm, ← hAddr, ← hSize]
  exact hAll y hy (hp.trans hPlanted)

theorem follows_step (hCanon : Canonical canon) (h : Follows canon phys₀ s clean) {e : Event}
    (hAllowed : Allowed canon s e) (hClear : Clear canon s e) :
    ∃ s' clean', step canon s e = some s' ∧ Follows canon phys₀ s' clean' := by
  obtain ⟨hSim, hAll⟩ := h.related
  cases e with
  | add mem address =>
    refine ⟨_, clean, rfl, h.silent rfl ⟨?_, ?_⟩⟩
    · refine Sim.perm ?_ List.perm_append_comm
      exact (sim_cons_unplanted rfl).mpr hSim
    · intro x hx hPlanted
      rcases List.mem_append.mp hx with hx | hx
      · exact hAll x hx hPlanted
      · rw [List.mem_singleton.mp hx] at hPlanted
        cases hPlanted
  | free n =>
    obtain ⟨bi, hbi, hNot⟩ := hAllowed
    obtain ⟨l₁, l₂, hList, -, hErase⟩ := split_at hbi
    refine ⟨{ s with instructions := s.instructions.eraseIdx n }, clean, ?_, h.silent rfl ⟨?_, ?_⟩⟩
    · show freeInstruction s n = _
      unfold freeInstruction
      rw [hbi, Option.bind_some, if_neg (by simp [hNot])]
    · rw [hErase]
      rw [hList] at hSim
      exact (sim_cons_unplanted hNot).mp (hSim.perm List.perm_middle)
    · intro x hx hPlanted
      exact hAll x (List.mem_of_mem_eraseIdx hx) hPlanted
  | plant n encoding io =>
    obtain ⟨s', hEq, h'⟩ := follows_plant h hAllowed hClear
    exact ⟨s', clean, hEq, h'⟩
  | remove n io =>
    obtain ⟨s', hEq, h'⟩ := follows_remove h hAllowed hClear
    exact ⟨s', clean, hEq, h'⟩
  | read ctx address size =>
    obtain ⟨s', hEq, h'⟩ := follows_read hCanon h hAllowed hClear
    exact ⟨s', clean, hEq, h'⟩
  | write ctx address bytes done => exact follows_write hCanon h hAllowed hClear

end TcfAgent.BreakpointMemory

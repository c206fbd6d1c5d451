import TcfAgent.Lib.Checked
import TcfAgent.Lib.Run

/-!
# The decompressor

`framework/compression.c`: the tables of the Huffman codes, the symbols of a block, stored blocks.
An assertion that fails and an access out of bounds are faults.

The positions are numbers of 32 bits, whatever the sizes of the buffers are. A decompression is a
sequence of steps: the head of a block, its tables, a symbol, a distance, a copy.
-/

namespace TcfAgent.Inflate

open TcfAgent.Lib

/-- What an exception is raised with: `ERR_BUFFER_OVERFLOW` or `ERR_OTHER`. -/
inductive Reason where
  | bufferOverflow
  | other
deriving DecidableEq, Repr

/-! ## Tables -/

/-- `FAST_LOOKUP_BITS` -/
def fastLookupBits : Nat := 8

/-- `MAX_SYMBOLS_CNT` -/
def maxSymbolsCnt : Nat := 288

structure HuffmanSymbol where
  code : Nat
  size : Nat
  tree : Bool
deriving DecidableEq, Repr

def HuffmanSymbol.zero : HuffmanSymbol := ⟨0, 0, false⟩

/-- `HuffmanTable` -/
structure HuffmanTable where
  symsCnt  : Nat
  codeSize : List Nat
  lookup   : List HuffmanSymbol
  tree     : List HuffmanSymbol
deriving DecidableEq, Repr

/-- `memset` of a table. -/
def HuffmanTable.zero : HuffmanTable where
  symsCnt := 0
  codeSize := List.replicate maxSymbolsCnt 0
  lookup := List.replicate (2 ^ fastLookupBits) .zero
  tree := List.replicate (maxSymbolsCnt * 2) .zero

/-- `tables`: literals and lengths, distances, code lengths. -/
structure Tables where
  literals  : HuffmanTable
  distances : HuffmanTable
  lengths   : HuffmanTable

structure State where
  inpPos : Nat
  bitBuf : Nat
  bitCnt : Nat
  out    : List UInt8
  outPos : Nat
  tables : Tables
  final  : Bool

/-- A position of 32 bits. -/
def u32 (n : Nat) : Nat := n % 2 ^ 32

abbrev Inf (α : Type) : Type := Checked State Reason α

/-- What is built without the state. -/
abbrev Build (α : Type) : Type := Except (Stop Reason) α

def liftBuild {α : Type} (b : Build α) : Inf α := fun s => b.map fun a => (a, s)

/-- `syms_per_size[i]` -/
def HuffmanTable.perSize (t : HuffmanTable) (i : Nat) : Nat := (t.codeSize.take t.symsCnt).count i

/-- `syms_next[i]`, before symbols are given codes; `syms_next[16]` is `syms_total`. -/
def HuffmanTable.symsNext (t : HuffmanTable) : Nat → Nat
  | 0 => 0
  | 1 => 0
  | i + 2 => (t.symsNext (i + 1) + t.perSize (i + 1)) * 2

/-- `syms_used` -/
def HuffmanTable.symsUsed (t : HuffmanTable) : Nat :=
  ((List.range 15).map fun i => t.perSize (i + 1)).sum

/-- The loop that makes `rev_code` out of `cur_code`. -/
def revCode : (size cur rev : Nat) → Nat
  | 0, _, rev => rev
  | size + 1, cur, rev => revCode size (cur / 2) (rev * 2 + cur % 2)

/-- `hs_next` -/
def nodeAt (code : Nat) : HuffmanSymbol := ⟨code, 0, true⟩

/-- The tables that are built, `hs_next.code` and `syms_next`. -/
structure Builder where
  lookup   : List HuffmanSymbol
  tree     : List HuffmanSymbol
  nextCode : Nat
  symsNext : List Nat

/-- The loop that puts a short code into every entry of `lookup` that begins with it. -/
def fillLookup (hs : HuffmanSymbol) (step : Nat) :
    (fuel rev : Nat) → List HuffmanSymbol → List HuffmanSymbol
  | 0, _, lookup => lookup
  | fuel + 1, rev, lookup =>
    if rev < 2 ^ fastLookupBits then fillLookup hs step fuel (rev + step) (lookup.set rev hs)
    else lookup

/-- The loop over the bits of a long code but the last one: `code` is `hs.code`. -/
def descend : (n rev code : Nat) → List HuffmanSymbol → (nextCode : Nat) →
    Build (Nat × Nat × List HuffmanSymbol × Nat)
  | 0, rev, code, tree, nextCode => .ok (rev, code, tree, nextCode)
  | n + 1, rev, code, tree, nextCode =>
    match tree[code + rev % 2]? with
    | none => .error .fault
    | some e =>
      if e.tree then descend n (rev / 2) e.code tree nextCode
      else descend n (rev / 2) nextCode (tree.set (code + rev % 2) (nodeAt nextCode)) (nextCode + 2)

/-- A code of more than `FAST_LOOKUP_BITS` bits. -/
def insertLong (b : Builder) (sym size rev : Nat) : Build Builder :=
  match b.lookup[rev % 2 ^ fastLookupBits]? with
  | none => .error .fault
  | some hs =>
    if hs.size ≠ 0 then .error .fault
    else
      let (code, lookup, nextCode) :=
        if hs.tree then (hs.code, b.lookup, b.nextCode)
        else (b.nextCode, b.lookup.set (rev % 2 ^ fastLookupBits) (nodeAt b.nextCode),
          b.nextCode + 2)
      match descend (size - (fastLookupBits + 1)) (rev / 2 ^ fastLookupBits) code b.tree
        nextCode with
      | .error e => .error e
      | .ok (rev, code, tree, nextCode) =>
        if maxSymbolsCnt * 2 < nextCode then .error .fault
        else
          match tree[code + rev % 2]? with
          | none => .error .fault
          | some e => .ok
            { b with
              lookup
              tree := tree.set (code + rev % 2) { e with code := sym, size }
              nextCode }

/-- One symbol of the loop of `decode_tables`. -/
def insertSymbol (b : Builder) (sym size : Nat) : Build Builder :=
  if size = 0 then .ok b
  else if 15 < size then .error .fault
  else
    match b.symsNext[size]? with
    | none => .error .fault
    | some cur =>
      let rev := revCode size cur 0
      let b := { b with symsNext := b.symsNext.set size (cur + 1) }
      if size ≤ fastLookupBits then
        .ok { b with
          lookup := fillLookup ⟨sym, size, false⟩ (2 ^ size) (2 ^ fastLookupBits) rev b.lookup }
      else insertLong b sym size rev

/-- The symbols from `sym` on. -/
def insertSymbols (b : Builder) (sym : Nat) : List Nat → Build Builder
  | [] => .ok b
  | size :: sizes =>
    match insertSymbol b sym size with
    | .error e => .error e
    | .ok b => insertSymbols b (sym + 1) sizes

/-- A round of the outer loop of `decode_tables`, for one table. -/
def buildTable (t : HuffmanTable) : Build HuffmanTable :=
  if t.codeSize.length < t.symsCnt then .error .fault
  else if ¬ ∀ size ∈ t.codeSize.take t.symsCnt, size ≤ 15 then .error .fault
  else if t.symsNext 16 ≠ 0x10000 ∧ 1 < t.symsUsed then .error (.raise .other)
  else
    match insertSymbols ⟨t.lookup, t.tree, 0, (List.range 17).map t.symsNext⟩ 0
      (t.codeSize.take t.symsCnt) with
    | .error e => .error e
    | .ok b => .ok { t with lookup := b.lookup, tree := b.tree }

/-! ## The input -/

section

variable (src : List UInt8)

/-- The next byte goes to `inp_bit_buf`. -/
def fetchByte : Inf Unit := do
  let s ← get
  if src.length ≤ s.inpPos then raise .bufferOverflow
  let b ← orFault src[s.inpPos]?
  ensure (s.bitCnt < 32)
  modify fun s =>
    { s with
      inpPos := u32 (s.inpPos + 1)
      bitBuf := s.bitBuf ||| u32 (b.toNat <<< s.bitCnt)
      bitCnt := s.bitCnt + 8 }

/-- `while (inp_bit_cnt < n)`: a round adds eight bits. -/
def fill (n : Nat) : (fuel : Nat) → Inf Unit
  | 0 => pure ()
  | fuel + 1 => do
    if (← get).bitCnt < n then do
      fetchByte src
      fill n fuel

/-- `inp_bit_buf >>= n`, `inp_bit_cnt -= n` -/
def dropBits (n : Nat) : Inf Unit := do
  ensure (n ≤ (← get).bitCnt)
  modify fun s => { s with bitBuf := s.bitBuf >>> n, bitCnt := s.bitCnt - n }

/-- `get_bits` -/
def getBits (n : Nat) : Inf Nat := do
  if n = 0 then return 0
  ensure (n < 32)
  fill src n n
  let v := (← get).bitBuf % 2 ^ n
  dropBits n
  return v

/-- The loop of `decode_huffman_symbol`: `b` is 15 less the fuel. -/
def walkTree (tree : List HuffmanSymbol) (buf : Nat) :
    (fuel : Nat) → HuffmanSymbol → Build HuffmanSymbol
  | 0, _ => .error .fault
  | fuel + 1, v =>
    if maxSymbolsCnt * 2 - 2 < v.code then .error .fault
    else
      match tree[v.code + (buf >>> (14 - fuel)) % 2]? with
      | none => .error .fault
      | some v =>
        if v.tree then walkTree tree buf fuel v
        else if v.size = 15 - fuel then .ok v
        else .error .fault

/-- The symbol at the beginning of these bits. -/
def lookupSymbol (t : HuffmanTable) (buf : Nat) : Build HuffmanSymbol :=
  match t.lookup[buf % 2 ^ fastLookupBits]? with
  | none => .error .fault
  | some v => if v.tree then walkTree t.tree buf (15 - fastLookupBits) v else .ok v

/-- `decode_huffman_symbol` -/
def decodeHuffmanSymbol (t : HuffmanTable) : Inf Nat := do
  fill src 15 15
  let v ← liftBuild (lookupSymbol t (← get).bitBuf)
  ensure (v.size ≤ 15)
  if v.size = 0 then raise .other
  dropBits v.size
  return v.code

/-! ## The head of a block -/

def zigzag : List Nat := [16, 17, 18, 0, 8, 7, 9, 6, 10, 5, 11, 4, 12, 3, 13, 2, 14, 1, 15]

/-- The sizes of the code for code lengths; `order` are the symbols they are for. -/
def readCodeSizes : (order : List Nat) → (sizes : List Nat) → Inf (List Nat)
  | [], sizes => return sizes
  | sym :: order, sizes => do
    let size ← getBits src 3
    ensure (sym < sizes.length)
    readCodeSizes order (sizes.set sym size)

/-- The sizeof `len_codes`. -/
def lenCodesMax : Nat := maxSymbolsCnt + 32 + 137

/-- How often the code length of a repeat code is repeated. -/
def repeatCount (d : Nat) : Inf Nat :=
  if d = 16 then do return (← getBits src 2) + 3
  else if d = 17 then do return (← getBits src 3) + 3
  else if d = 18 then do return (← getBits src 7) + 11
  else return 0

/-- A round of the loop that reads `len_codes`, of which `lens` is written: `d` is the symbol. -/
def addLengths (lens : List Nat) (d : Nat) : Inf (List Nat) := do
  if d < 16 then do
    ensure (lens.length < lenCodesMax)
    return lens ++ [d]
  else do
    if d = 16 ∧ lens = [] then raise .other
    let n ← repeatCount src d
    if n = 0 then raise .other
    ensure (lens.length + n ≤ lenCodesMax)
    return lens ++ List.replicate n (if d = 16 then lens.getLastD 0 else 0)

/-- The loop that reads `len_codes`; a round adds one of them or more. -/
def readLengths (t : HuffmanTable) (total : Nat) : (fuel : Nat) → (lens : List Nat) → Inf (List Nat)
  | 0, lens => return lens
  | fuel + 1, lens =>
    if total ≤ lens.length then return lens
    else do
      let d ← decodeHuffmanSymbol src t
      let lens ← addLengths src lens d
      readLengths t total fuel lens

/-- `memcpy` to `code_size`, which is 0 behind it. -/
def HuffmanTable.withSizes (sizes : List Nat) : HuffmanTable :=
  { HuffmanTable.zero with
    symsCnt := sizes.length
    codeSize := sizes ++ List.replicate (maxSymbolsCnt - sizes.length) 0 }

def fixedLiterals : List Nat :=
  List.replicate 144 8 ++ List.replicate 112 9 ++ List.replicate 24 7 ++ List.replicate 8 8

/-- `decode_tables(1)`, before the tables are built. -/
def fixedSizes : List Nat × List Nat := (fixedLiterals, List.replicate 32 5)

/-- `decode_tables(2)`, up to the sizes of the codes for literals and distances; the table of the
code lengths is the last one. -/
def dynamicSizes : Inf (List Nat × List Nat × HuffmanTable) := do
  let literals := (← getBits src 5) + 257
  let distances := (← getBits src 5) + 1
  let lengths := (← getBits src 4) + 4
  let sizes ← readCodeSizes src (zigzag.take lengths) (List.replicate 19 0)
  let t ← liftBuild (buildTable (.withSizes sizes))
  let lens ← readLengths src t (literals + distances) (literals + distances) []
  if literals + distances ≠ lens.length then raise .other
  return (lens.take literals, lens.drop literals, t)

/-- The end of `decode_tables`. -/
def buildTables (sizes : List Nat × List Nat) (lengths : HuffmanTable) : Inf Unit := do
  ensure (sizes.1.length ≤ maxSymbolsCnt ∧ sizes.2.length ≤ maxSymbolsCnt)
  let distances ← liftBuild (buildTable (.withSizes sizes.2))
  let literals ← liftBuild (buildTable (.withSizes sizes.1))
  modify fun s => { s with tables := ⟨literals, distances, lengths⟩ }

/-- `decode_tables` -/
def decodeTables (type : Nat) : Inf Unit := do
  if type = 1 then buildTables fixedSizes .zero
  else do
    let (literals, distances, lengths) ← dynamicSizes src
    buildTables (literals, distances) lengths

/-- A stored block. -/
def storedBlock : Inf Unit := do
  modify fun s => { s with inpPos := u32 (s.inpPos + 2 ^ 32 - s.bitCnt / 8), bitCnt := 0 }
  let s ← get
  if src.length < u32 (s.inpPos + 4) then raise .other
  let b0 ← orFault src[s.inpPos]?
  let b1 ← orFault src[u32 (s.inpPos + 1)]?
  let b2 ← orFault src[u32 (s.inpPos + 2)]?
  let b3 ← orFault src[u32 (s.inpPos + 3)]?
  let len := b0.toNat + b1.toNat * 256
  let nlen := b2.toNat + b3.toNat * 256
  let pos := u32 (s.inpPos + 4)
  if len ^^^ nlen ≠ 0xffff then raise .other
  if src.length < u32 (pos + len) then raise .other
  if s.out.length < u32 (s.outPos + len) then raise .other
  ensure (pos + len ≤ src.length ∧ s.outPos + len ≤ s.out.length)
  modify fun s =>
    { s with
      inpPos := u32 (pos + len)
      out := s.out.take s.outPos ++ ((src.drop pos).take len ++ s.out.drop (s.outPos + len))
      outPos := u32 (s.outPos + len) }

/-! ## The symbols of a block -/

def lengthBase : List Nat :=
  [3, 4, 5, 6, 7, 8, 9, 10, 11, 13, 15, 17, 19, 23, 27, 31, 35, 43, 51, 59, 67, 83, 99, 115, 131,
    163, 195, 227, 258, 0, 0]

def lengthExtra : List Nat :=
  [0, 0, 0, 0, 0, 0, 0, 0, 1, 1, 1, 1, 2, 2, 2, 2, 3, 3, 3, 3, 4, 4, 4, 4, 5, 5, 5, 5, 0, 0, 0]

def distBase : List Nat :=
  [1, 2, 3, 4, 5, 7, 9, 13, 17, 25, 33, 49, 65, 97, 129, 193, 257, 385, 513, 769, 1025, 1537, 2049,
    3073, 4097, 6145, 8193, 12289, 16385, 24577, 0, 0]

def distExtra : List Nat :=
  [0, 0, 0, 0, 1, 1, 2, 2, 3, 3, 4, 4, 5, 5, 6, 6, 7, 7, 8, 8, 9, 9, 10, 10, 11, 11, 12, 12, 13, 13,
    0, 0]

end

/-- `out_buf[out_pos++] = b` -/
def putByte (b : UInt8) : Inf Unit := do
  let s ← get
  ensure (s.outPos < s.out.length)
  modify fun s => { s with out := s.out.set s.outPos b, outPos := u32 (s.outPos + 1) }

/-- The loop that copies what has been written. -/
def copyBytes (ofs : Nat) : (len : Nat) → Inf Unit
  | 0 => pure ()
  | len + 1 => do
    let s ← get
    let b ← orFault s.out[u32 (s.outPos + 2 ^ 32 - ofs)]?
    putByte b
    copyBytes ofs len

/-! ## Decompressions -/

/-- Where `decompress` is: before a block, in a stored one, before the tables of a block, before a
symbol, between the length and the distance of a back-reference, before it is copied. -/
inductive Phase where
  | header
  | stored
  | tables (type : Nat)
  | symbol
  | distance (len : Nat)
  | copy (len ofs : Nat)
deriving DecidableEq, Repr

/-- After a block; `none` is the end. -/
def afterBlock : Inf (Option Phase) := do
  if (← get).final then do
    modify fun s => { s with inpPos := u32 (s.inpPos + 2 ^ 32 - s.bitCnt / 8), bitCnt := 0 }
    return none
  else return some .header

section

variable (src : List UInt8)

/-- The head of a block. -/
def headerStep : Inf (Option Phase) := do
  let final ← getBits src 1
  let type ← getBits src 2
  modify fun s => { s with final := final = 1 }
  if type = 0 then return some .stored
  else if type = 3 then raise .other
  else return some (.tables type)

/-- A symbol of a block: a literal, the end of the block or the length of a back-reference. -/
def symbolStep : Inf (Option Phase) := do
  let sym ← decodeHuffmanSymbol src (← get).tables.literals
  if sym < 256 then do
    let s ← get
    if s.out.length ≤ s.outPos then raise .other
    putByte (UInt8.ofNat sym)
    return some .symbol
  else if sym = 256 then afterBlock
  else do
    let base ← orFault lengthBase[sym - 257]?
    let extra ← orFault lengthExtra[sym - 257]?
    return some (.distance (base + (← getBits src extra)))

/-- The distance of a back-reference. -/
def distanceStep (len : Nat) : Inf (Option Phase) := do
  let symOfs ← decodeHuffmanSymbol src (← get).tables.distances
  let base ← orFault distBase[symOfs]?
  let extra ← orFault distExtra[symOfs]?
  let ofs := base + (← getBits src extra)
  let s ← get
  if s.outPos < ofs then raise .other
  if s.out.length < u32 (s.outPos + len) then raise .other
  return some (.copy len ofs)

def decompressStep : Phase → Inf (Option Phase)
  | .header => headerStep src
  | .stored => do
    storedBlock src
    afterBlock
  | .tables type => do
    decodeTables src type
    return some .symbol
  | .symbol => symbolStep src
  | .distance len => distanceStep src len
  | .copy len ofs => do
    copyBytes ofs len
    return some .symbol

end

/-- Where a run is. -/
inductive Status where
  | running (phase : Phase) (s : State)
  | finished (s : State)
  | raised (r : Reason)

/-- A step; `none` is a failed assertion or an access out of bounds. -/
def step (src : List UInt8) : Status → Unit → Option Status
  | .running phase s, _ =>
    match decompressStep src phase s with
    | .ok (some phase, s) => some (.running phase s)
    | .ok (none, s) => some (.finished s)
    | .error (.raise r) => some (.raised r)
    | .error .fault => none
  | status, _ => some status

/-- `decompress` with this destination; it returns `inp_pos`. -/
def start (dst : List UInt8) : Status :=
  .running .header ⟨0, 0, 0, dst, 0, ⟨.zero, .zero, .zero⟩, false⟩

end TcfAgent.Inflate

import TcfAgent.Framework.Inflate
import TcfAgent.Lib.PrefixCode

/-!
# The tables of the decompressor

The tables that `decode_tables` builds are a binary tree of which the first eight levels are one
table. `nodes` are its inner nodes below them: a length of at least 8 and as many bits, in the order
in which they were made. A place in the tables stands for a sequence of bits (`Place`); there is a
node, a code that ends there (`Leaf`) or nothing (`Entry`).

Main results

* `buildTable_ok`        — the tables of sizes that are complete, or of one code, are built
* `Decodes.lookup_cases` — bits that begin with a code give its symbol and its size; others give
  nothing, or end at an assertion
-/

namespace TcfAgent.Inflate

open TcfAgent.Lib

/-! ## Numbers -/

theorem revCode_eq (size cur rev : Nat) :
    revCode size cur rev = rev * 2 ^ size + mirror size cur := by
  induction size generalizing cur rev with
  | zero => simp [revCode, mirror]
  | succ size ih =>
    rw [revCode, ih, mirror, pow_succ]
    ring

theorem HuffmanTable.symsNext_eq (t : HuffmanTable) (i : Nat) :
    t.symsNext i = firstCode t.perSize i := by
  induction i using HuffmanTable.symsNext.induct with
  | case1 => rfl
  | case2 => rfl
  | case3 i ih => rw [HuffmanTable.symsNext, firstCode, ih]

/-- The bits up to a level, and the next one. -/
theorem mod_succ (x l : Nat) : x % 2 ^ (l + 1) = x % 2 ^ l + x / 2 ^ l % 2 * 2 ^ l := by
  rw [pow_succ, Nat.mod_mul]
  ring

theorem split_bit {w w' b b' l : Nat} (hw : w < 2 ^ l) (hw' : w' < 2 ^ l)
    (h : w + b * 2 ^ l = w' + b' * 2 ^ l) : w = w' ∧ b = b' := by
  have hMod := congrArg (· % 2 ^ l) h
  have hDiv := congrArg (· / 2 ^ l) h
  simp only [Nat.add_mul_mod_self_right, Nat.mod_eq_of_lt hw, Nat.mod_eq_of_lt hw'] at hMod
  simp only [Nat.add_mul_div_right _ _ (Nat.two_pow_pos l), Nat.div_eq_of_lt hw,
    Nat.div_eq_of_lt hw'] at hDiv
  omega

/-! ## Nodes -/

section

variable (sizes : List Nat)

/-- The code of a symbol goes on below these bits. -/
def Above (j l w : Nat) : Prop := l < sizes.getD j 0 ∧ codeword sizes j % 2 ^ l = w

/-- The code of a symbol ends with these bits, or before the first level. -/
def Leaf (j l w : Nat) : Prop :=
  Begins sizes j w ∧ (sizes.getD j 0 = l ∨ l = fastLookupBits ∧ sizes.getD j 0 ≤ fastLookupBits)

/-- Every node is on the way to the code of a symbol before `n`, and below another one. -/
structure Shape (n : Nat) (nodes : List (Nat × Nat)) : Prop where
  nodup  : nodes.Nodup
  level  : ∀ {l w}, (l, w) ∈ nodes → fastLookupBits ≤ l
  above  : ∀ {l w}, (l, w) ∈ nodes → ∃ j < n, Above sizes j l w
  parent : ∀ {l w}, (l + 1, w) ∈ nodes → fastLookupBits ≤ l → (l, w % 2 ^ l) ∈ nodes

/-- All nodes on the ways to the codes before `n` are there. -/
def Closed (n : Nat) (nodes : List (Nat × Nat)) : Prop :=
  ∀ {j l w}, j < n → Above sizes j l w → fastLookupBits ≤ l → (l, w) ∈ nodes

end

section

variable {sizes : List Nat} {nodes : List (Nat × Nat)} {n j k l w x : Nat}

theorem Above.lt (h : Above sizes j l w) : w < 2 ^ l := h.2 ▸ Nat.mod_lt _ (Nat.two_pow_pos l)

theorem Above.used (h : Above sizes j l w) : sizes.getD j 0 ≠ 0 := by
  have := h.1
  omega

theorem Shape.lt (h : Shape sizes n nodes) (hMem : (l, w) ∈ nodes) : w < 2 ^ l := by
  obtain ⟨j, -, hAbove⟩ := h.above hMem
  exact hAbove.lt

/-- No code ends on the way to another one, nor above it. -/
theorem Above.not_begins (hFits : Fits 15 sizes) (h : Above sizes j l w) (hMod : x % 2 ^ l = w)
    (hSize : sizes.getD k 0 ≤ l) : ¬ Begins sizes k x := by
  intro hBegins
  have hCode : Begins sizes k (codeword sizes j) := hBegins.congr hSize (h.2.trans hMod.symm)
  have hSame := hFits.begins_unique hCode (begins_codeword h.used)
  subst hSame
  have := h.1
  omega

theorem Above.not_leaf (hFits : Fits 15 sizes) (h : Above sizes j l w) : ¬ Leaf sizes k l w := by
  rintro ⟨hBegins, hSize⟩
  refine h.not_begins hFits (Nat.mod_eq_of_lt h.lt) ?_ hBegins
  omega

/-- A code ends where it begins. -/
theorem Leaf.begins (h : Leaf sizes j l w) (hMod : x % 2 ^ l = w) : Begins sizes j x := by
  obtain ⟨hBegins, hSize⟩ := h
  refine hBegins.congr (k := l) (by omega) ?_
  rw [← hMod, Nat.mod_mod]

theorem Shape.mono {m : Nat} (h : Shape sizes n nodes) (hm : n ≤ m) : Shape sizes m nodes := by
  refine ⟨h.nodup, h.level, ?_, h.parent⟩
  intro l w hMem
  obtain ⟨j, hj, hAbove⟩ := h.above hMem
  exact ⟨j, by omega, hAbove⟩

theorem Shape.add (h : Shape sizes n nodes) (hNew : (l, w) ∉ nodes) (hl : fastLookupBits ≤ l)
    (hj : j < n) (hAbove : Above sizes j l w)
    (hParent : ∀ l', l = l' + 1 → fastLookupBits ≤ l' → (l', w % 2 ^ l') ∈ nodes) :
    Shape sizes n (nodes ++ [(l, w)]) := by
  refine ⟨?_, ?_, ?_, ?_⟩
  · refine List.Nodup.append h.nodup (List.nodup_singleton _) ?_
    intro p hp hMem
    cases List.mem_singleton.1 hMem
    exact hNew hp
  · intro l' w' hMem
    rcases List.mem_append.1 hMem with hOld | hLast
    · exact h.level hOld
    · cases List.mem_singleton.1 hLast
      exact hl
  · intro l' w' hMem
    rcases List.mem_append.1 hMem with hOld | hLast
    · exact h.above hOld
    · cases List.mem_singleton.1 hLast
      exact ⟨j, hj, hAbove⟩
  · intro l' w' hMem hLevel
    rcases List.mem_append.1 hMem with hOld | hLast
    · exact List.mem_append_left _ (h.parent hOld hLevel)
    · cases List.mem_singleton.1 hLast
      exact List.mem_append_left _ (hParent l' rfl hLevel)

/-- The ways up from a node. -/
theorem Shape.ancestor (h : Shape sizes n nodes) (hMem : (l, w) ∈ nodes) (hk : fastLookupBits ≤ k)
    (hkl : k ≤ l) : (k, w % 2 ^ k) ∈ nodes := by
  induction l generalizing w with
  | zero =>
    obtain rfl : k = 0 := by omega
    rwa [Nat.mod_eq_of_lt (h.lt hMem)]
  | succ l ih =>
    rcases Nat.lt_or_eq_of_le hkl with hLess | rfl
    · have hUp := ih (h.parent hMem (by omega)) (by omega)
      rwa [Nat.mod_mod_of_dvd w (pow_dvd_pow 2 (by omega))] at hUp
    · rwa [Nat.mod_eq_of_lt (h.lt hMem)]

/-- The sizes for which tables are built: a complete code, or one code at most. -/
inductive Good (sizes : List Nat) : Prop where
  | complete (h : Complete 15 sizes)
  | single (h : Single 15 sizes)

theorem Good.fits (h : Good sizes) : Fits 15 sizes := by
  cases h with
  | complete h => exact h.fits
  | single h => exact h.fits

theorem Good.le (h : Good sizes) (j : Nat) : sizes.getD j 0 ≤ 15 := by
  by_cases hj : sizes.getD j 0 = 0
  · omega
  · exact h.fits.le _ (size_mem hj)

/-- A node has a code of its own: the first one on the other side of its middle. -/
theorem Shape.exists_middle (hComplete : Complete 15 sizes) (h : Shape sizes n nodes)
    (hMem : (l, w) ∈ nodes) : ∃ j < sizes.length, codeword sizes j = w + 2 ^ l := by
  have hw := h.lt hMem
  obtain ⟨j, hBegins⟩ := hComplete.exists_begins (by decide) (w + 2 ^ l)
  obtain ⟨k, -, hAbove⟩ := h.above hMem
  have hMod : (w + 2 ^ l) % 2 ^ l = w := by rw [Nat.add_mod_right, Nat.mod_eq_of_lt hw]
  have hSize : l < sizes.getD j 0 := by
    by_contra hNot
    exact hAbove.not_begins hComplete.fits hMod (Nat.not_lt.1 hNot) hBegins
  have hLt : w + 2 ^ l < 2 ^ sizes.getD j 0 := by
    calc w + 2 ^ l < 2 ^ (l + 1) := by rw [pow_succ]; omega
      _ ≤ 2 ^ sizes.getD j 0 := Nat.pow_le_pow_right (by decide) hSize
  exact ⟨j, lt_of_size hBegins.1, by rw [← hBegins.2, Nat.mod_eq_of_lt hLt]⟩

theorem middle_inj {l' w' : Nat} (hw : w < 2 ^ l) (hw' : w' < 2 ^ l')
    (h : w + 2 ^ l = w' + 2 ^ l') : l = l' ∧ w = w' := by
  rcases Nat.lt_trichotomy l l' with hLt | rfl | hGt
  · have hPow : 2 ^ (l + 1) ≤ 2 ^ l' := Nat.pow_le_pow_right (by decide) hLt
    rw [pow_succ] at hPow
    omega
  · omega
  · have hPow : 2 ^ (l' + 1) ≤ 2 ^ l := Nat.pow_le_pow_right (by decide) hGt
    rw [pow_succ] at hPow
    omega

/-- The nodes fit into `tree`. -/
theorem Shape.length_le (hGood : Good sizes) (h : Shape sizes n nodes)
    (hLength : sizes.length ≤ maxSymbolsCnt) : nodes.length ≤ maxSymbolsCnt := by
  cases hGood with
  | complete hComplete =>
    have hNodup : (nodes.map fun p => p.2 + 2 ^ p.1).Nodup := by
      refine h.nodup.map_on ?_
      rintro ⟨l, w⟩ hMem ⟨l', w'⟩ hMem' hSame
      obtain ⟨rfl, rfl⟩ := middle_inj (h.lt hMem) (h.lt hMem') hSame
      rfl
    have hSubset : (nodes.map fun p => p.2 + 2 ^ p.1) ⊆
        (List.range sizes.length).map (codeword sizes) := by
      intro x hx
      obtain ⟨⟨l, w⟩, hMem, rfl⟩ := List.mem_map.1 hx
      obtain ⟨j, hj, hCode⟩ := h.exists_middle hComplete hMem
      exact List.mem_map.2 ⟨j, List.mem_range.2 hj, hCode⟩
    have hCount := (hNodup.subperm hSubset).length_le
    simp only [List.length_map, List.length_range] at hCount
    omega
  | single hSingle =>
    have hNodup : (nodes.map Prod.fst).Nodup := by
      refine h.nodup.map_on ?_
      rintro ⟨l, w⟩ hMem ⟨l', w'⟩ hMem' (rfl : l = l')
      obtain ⟨j, -, hAbove⟩ := h.above hMem
      obtain ⟨j', -, hAbove'⟩ := h.above hMem'
      have hSame := hSingle.unique hAbove.used hAbove'.used
      subst hSame
      rw [← hAbove.2, ← hAbove'.2]
    have hSubset : nodes.map Prod.fst ⊆ List.range 15 := by
      intro l hl
      obtain ⟨⟨l, w⟩, hMem, rfl⟩ := List.mem_map.1 hl
      obtain ⟨j, -, hAbove⟩ := h.above hMem
      have hLe := hSingle.fits.le _ (size_mem hAbove.used)
      have hLt := hAbove.1
      exact List.mem_range.2 (by show l < 15; omega)
    have hCount := (hNodup.subperm hSubset).length_le
    simp only [List.length_map, List.length_range] at hCount
    exact hCount.trans (by decide)

end

/-! ## Entries -/

/-- Where an entry is. -/
inductive Slot where
  | lookup (k : Nat)
  | tree (k : Nat)
deriving DecidableEq

def entryAt (lookup tree : List HuffmanSymbol) : Slot → Option HuffmanSymbol
  | .lookup k => lookup[k]?
  | .tree k => tree[k]?

/-- The entries that stand for sequences of bits: `l` bits, which are the number `w`. -/
inductive Place (nodes : List (Nat × Nat)) : (l w : Nat) → Slot → Prop where
  | root {w : Nat} : w < 2 ^ fastLookupBits → Place nodes fastLookupBits w (.lookup w)
  | child {i l w b : Nat} : nodes[i]? = some (l, w) → b < 2 →
      Place nodes (l + 1) (w + b * 2 ^ l) (.tree (2 * i + b))

/-- What is at a place when the symbols before `n` have been put into the tables. -/
inductive Entry (sizes : List Nat) (n : Nat) (nodes : List (Nat × Nat)) (l w : Nat) :
    HuffmanSymbol → Prop where
  | node {i : Nat} : nodes[i]? = some (l, w) → Entry sizes n nodes l w (nodeAt (2 * i))
  | leaf {j : Nat} : j < n → Leaf sizes j l w →
      Entry sizes n nodes l w ⟨j, sizes.getD j 0, false⟩
  | empty : (l, w) ∉ nodes → (∀ j < n, ¬ Leaf sizes j l w) → Entry sizes n nodes l w .zero

/-- All entries are what the first `n` symbols ask for. -/
structure Holds (sizes : List Nat) (n : Nat) (nodes : List (Nat × Nat))
    (entries : Slot → Option HuffmanSymbol) : Prop where
  entry : ∀ {l w slot e}, Place nodes l w slot → entries slot = some e →
    Entry sizes n nodes l w e
  rest  : ∀ {k e}, 2 * nodes.length ≤ k → entries (.tree k) = some e → e = .zero

section

variable {sizes : List Nat} {nodes : List (Nat × Nat)} {n m l w l' w' : Nat} {slot slot' : Slot}
  {entries entries' : Slot → Option HuffmanSymbol} {lookup tree : List HuffmanSymbol}
  {e : HuffmanSymbol}

theorem entryAt_setLookup {k : Nat} (h : k < lookup.length) :
    entryAt (lookup.set k e) tree =
      Function.update (entryAt lookup tree) (.lookup k) (some e) := by
  funext slot
  cases slot with
  | lookup i =>
    by_cases hi : i = k
    · subst hi
      simp [entryAt, h]
    · simp [entryAt, List.getElem?_set_ne (Ne.symm hi), hi]
  | tree i => simp [entryAt]

theorem entryAt_setTree {k : Nat} (h : k < tree.length) :
    entryAt lookup (tree.set k e) = Function.update (entryAt lookup tree) (.tree k) (some e) := by
  funext slot
  cases slot with
  | lookup i => simp [entryAt]
  | tree i =>
    by_cases hi : i = k
    · subst hi
      simp [entryAt, h]
    · simp [entryAt, List.getElem?_set_ne (Ne.symm hi), hi]

theorem index_lt {i : Nat} (h : nodes[i]? = some (l, w)) : i < nodes.length :=
  (List.getElem?_eq_some_iff.1 h).1

theorem Place.lt (hShape : Shape sizes n nodes) (h : Place nodes l w slot) : w < 2 ^ l := by
  cases h with
  | root hw => exact hw
  | @child i l w b hNode hb =>
    have hw := hShape.lt (List.mem_of_getElem? hNode)
    have hMul : b * 2 ^ l ≤ 1 * 2 ^ l := Nat.mul_le_mul_right _ (by omega)
    rw [pow_succ]
    omega

theorem Place.level (hShape : Shape sizes n nodes) (h : Place nodes l w slot) :
    fastLookupBits ≤ l := by
  cases h with
  | root => exact Nat.le_refl _
  | child hNode => exact (hShape.level (List.mem_of_getElem? hNode)).trans (Nat.le_succ _)

/-- A place is behind no node that there is not. -/
theorem Place.slot_ne (h : Place nodes l w slot) {k : Nat} (hk : 2 * nodes.length ≤ k) :
    slot ≠ .tree k := by
  cases h with
  | root => exact fun h => Slot.noConfusion h
  | child hNode hb =>
    have := index_lt hNode
    intro hSame
    injection hSame
    omega

/-- Different places are for different sequences of bits. -/
theorem Place.inj (hShape : Shape sizes n nodes) (h : Place nodes l w slot)
    (h' : Place nodes l' w' slot') : slot = slot' ↔ l = l' ∧ w = w' := by
  cases h with
  | root hw =>
    cases h' with
    | root hw' => simp
    | child hNode' hb' =>
      have hLevel := hShape.level (List.mem_of_getElem? hNode')
      constructor
      · exact fun h => Slot.noConfusion h
      · rintro ⟨hl, -⟩
        omega
  | @child i l w b hNode hb =>
    have hLevel := hShape.level (List.mem_of_getElem? hNode)
    cases h' with
    | root hw' =>
      constructor
      · exact fun h => Slot.noConfusion h
      · rintro ⟨hl, -⟩
        omega
    | @child i' l' w' b' hNode' hb' =>
      constructor
      · intro hSlot
        injection hSlot with hSlot
        obtain ⟨rfl, rfl⟩ : i = i' ∧ b = b' := by omega
        cases hNode.symm.trans hNode'
        exact ⟨rfl, rfl⟩
      · rintro ⟨hl, hw⟩
        obtain rfl : l = l' := by omega
        obtain ⟨rfl, rfl⟩ := split_bit (hShape.lt (List.mem_of_getElem? hNode))
          (hShape.lt (List.mem_of_getElem? hNode')) hw
        rw [(List.getElem?_inj (index_lt hNode) hShape.nodup).1 (hNode.trans hNode'.symm)]

/-- The places below a new node come after the others. -/
theorem Place.of_append (h : Place (nodes ++ [(l', w')]) l w slot) :
    Place nodes l w slot ∨ ∃ b < 2, slot = .tree (2 * nodes.length + b) ∧ l = l' + 1 ∧
      w = w' + b * 2 ^ l' := by
  cases h with
  | root hw => exact Or.inl (.root hw)
  | @child i l w b hNode hb =>
    rcases Nat.lt_or_ge i nodes.length with hOld | hNew
    · rw [List.getElem?_append_left hOld] at hNode
      exact Or.inl (.child hNode hb)
    · have hIndex := index_lt hNode
      rw [List.length_append, List.length_singleton] at hIndex
      obtain rfl : i = nodes.length := by omega
      rw [List.getElem?_concat_length] at hNode
      cases hNode
      exact Or.inr ⟨b, hb, rfl, rfl, rfl⟩

theorem Entry.append (h : Entry sizes n nodes l w e) (hNe : ¬ (l = l' ∧ w = w')) :
    Entry sizes n (nodes ++ [(l', w')]) l w e := by
  cases h with
  | node hNode => exact .node (by rw [List.getElem?_append_left (index_lt hNode), hNode])
  | leaf hj hLeaf => exact .leaf hj hLeaf
  | empty hMem hNone =>
    refine .empty ?_ hNone
    intro hNew
    rcases List.mem_append.1 hNew with hOld | hLast
    · exact hMem hOld
    · cases List.mem_singleton.1 hLast
      exact hNe ⟨rfl, rfl⟩

/-- A node is made at an empty place. -/
theorem Holds.addNode (h : Holds sizes n nodes entries) (hShape : Shape sizes m nodes)
    (hClosed : Closed sizes n nodes) (hPlace : Place nodes l w slot) (hNew : (l, w) ∉ nodes) :
    Holds sizes n (nodes ++ [(l, w)])
      (Function.update entries slot (some (nodeAt (2 * nodes.length)))) := by
  have hLt := hPlace.lt hShape
  have hLevel := hPlace.level hShape
  refine ⟨?_, ?_⟩
  · intro l' w' slot' e hPlace' hEntry
    rcases hPlace'.of_append with hOld | ⟨b, hb, rfl, rfl, rfl⟩
    · by_cases hSlot : slot' = slot
      · subst hSlot
        obtain ⟨rfl, rfl⟩ := (hOld.inj hShape hPlace).1 rfl
        rw [Function.update_self] at hEntry
        cases hEntry
        exact .node (by rw [List.getElem?_concat_length])
      · rw [Function.update_of_ne hSlot] at hEntry
        exact (h.entry hOld hEntry).append fun hSame => hSlot ((hOld.inj hShape hPlace).2 hSame)
    · -- nothing is below the new node
      have hSlot := hPlace.slot_ne (Nat.le_add_right (2 * nodes.length) b)
      rw [Function.update_of_ne hSlot.symm] at hEntry
      rw [h.rest (Nat.le_add_right _ _) hEntry]
      have hMod : (w + b * 2 ^ l) % 2 ^ l = w := by
        rw [Nat.add_mul_mod_self_right, Nat.mod_eq_of_lt hLt]
      refine .empty ?_ ?_
      · intro hMem
        rcases List.mem_append.1 hMem with hOld | hLast
        · exact hNew (hMod ▸ hShape.parent hOld hLevel)
        · have hSame := List.mem_singleton.1 hLast
          injection hSame with hl
          omega
      · rintro j hj ⟨hBegins, hSize⟩
        have hAbove : Above sizes j l w := by
          have hl : sizes.getD j 0 = l + 1 := by omega
          refine ⟨by omega, ?_⟩
          rw [← hBegins.2, hl, Nat.mod_mod_of_dvd _ (pow_dvd_pow 2 (Nat.le_succ l)), hMod]
        exact hNew (hClosed hj hAbove hLevel)
  · intro k e hk hEntry
    rw [List.length_append, List.length_singleton] at hk
    rw [Function.update_of_ne (hPlace.slot_ne (by omega)).symm] at hEntry
    exact h.rest (by omega) hEntry

/-- A symbol is put where its code ends, and nowhere else. -/
theorem Holds.addSymbol (h : Holds sizes n nodes entries)
    (hLeaf : ∀ {l w slot e}, Place nodes l w slot → entries' slot = some e →
      Leaf sizes n l w ∧ e = ⟨n, sizes.getD n 0, false⟩ ∨
        ¬ Leaf sizes n l w ∧ entries slot = some e)
    (hRest : ∀ {k}, 2 * nodes.length ≤ k → entries' (.tree k) = entries (.tree k)) :
    Holds sizes (n + 1) nodes entries' := by
  refine ⟨?_, fun hk hEntry => h.rest hk (hRest hk ▸ hEntry)⟩
  intro l w slot e hPlace hEntry
  rcases hLeaf hPlace hEntry with ⟨hHere, rfl⟩ | ⟨hNot, hOld⟩
  · exact .leaf (Nat.lt_succ_self n) hHere
  · cases h.entry hPlace hOld with
    | node hNode => exact .node hNode
    | leaf hj hLeaf => exact .leaf (by omega) hLeaf
    | empty hMem hNone =>
      refine .empty hMem fun j hj => ?_
      rcases Nat.lt_or_eq_of_le (Nat.le_of_lt_succ hj) with hLess | rfl
      · exact hNone j hLess
      · exact hNot

end

/-! ## One symbol after the other -/

/-- The tables with the symbols before `n`, and nodes for those before `m`. -/
structure Grown (sizes : List Nat) (m n : Nat) (nodes : List (Nat × Nat))
    (lookup tree : List HuffmanSymbol) : Prop where
  lookupSize : lookup.length = 2 ^ fastLookupBits
  treeSize   : tree.length = maxSymbolsCnt * 2
  shape      : Shape sizes m nodes
  closed     : Closed sizes n nodes
  holds      : Holds sizes n nodes (entryAt lookup tree)

section

variable {sizes : List Nat} {nodes : List (Nat × Nat)} {m n l w : Nat} {slot : Slot}
  {lookup tree : List HuffmanSymbol} {e : HuffmanSymbol}

theorem Place.parent_mem (hShape : Shape sizes m nodes) (h : Place nodes (l + 1) w slot)
    (hl : fastLookupBits ≤ l) : (l, w % 2 ^ l) ∈ nodes := by
  generalize hLevel : l + 1 = level at h
  cases h with
  | root hw => omega
  | @child i k w b hNode hb =>
    obtain rfl : l = k := by omega
    have hMem := List.mem_of_getElem? hNode
    rwa [Nat.add_mul_mod_self_right, Nat.mod_eq_of_lt (hShape.lt hMem)]

/-- On the way to a new code there is a node, or one is made. -/
theorem Grown.enter (hFits : Fits 15 sizes) (h : Grown sizes (n + 1) n nodes lookup tree)
    (hAbove : Above sizes n l w) (hPlace : Place nodes l w slot)
    (hEntry : entryAt lookup tree slot = some e) :
    (∃ i, nodes[i]? = some (l, w) ∧ e = nodeAt (2 * i)) ∨
      e = .zero ∧ Shape sizes (n + 1) (nodes ++ [(l, w)]) ∧ Closed sizes n (nodes ++ [(l, w)]) ∧
        Holds sizes n (nodes ++ [(l, w)])
          (Function.update (entryAt lookup tree) slot (some (nodeAt (2 * nodes.length)))) := by
  cases h.holds.entry hPlace hEntry with
  | node hNode => exact Or.inl ⟨_, hNode, rfl⟩
  | leaf hj hLeaf => exact absurd hLeaf (hAbove.not_leaf hFits)
  | empty hMem hNone =>
    refine Or.inr ⟨rfl, ?_, ?_, h.holds.addNode h.shape h.closed hPlace hMem⟩
    · refine h.shape.add hMem (hPlace.level h.shape) (Nat.lt_succ_self n) hAbove ?_
      intro l' hl hLevel
      subst hl
      exact hPlace.parent_mem h.shape hLevel
    · intro j l' w' hj hAbove' hLevel
      exact List.mem_append_left _ (h.closed hj hAbove' hLevel)

/-- The place below a node. -/
theorem child_of_bits {i x : Nat} (hNode : nodes[i]? = some (l, x % 2 ^ l)) :
    Place nodes (l + 1) (x % 2 ^ (l + 1)) (.tree (2 * i + x / 2 ^ l % 2)) := by
  rw [mod_succ]
  exact .child hNode (Nat.mod_lt _ (by decide))

theorem Grown.exists_entry {i b : Nat} (hGood : Good sizes)
    (hLength : sizes.length ≤ maxSymbolsCnt) (h : Grown sizes m n nodes lookup tree)
    (hi : i < nodes.length) (hb : b < 2) : ∃ e, tree[2 * i + b]? = some e := by
  have hNodes := h.shape.length_le hGood hLength
  have hLt : 2 * i + b < tree.length := by
    rw [h.treeSize]
    omega
  exact ⟨_, List.getElem?_eq_getElem hLt⟩

/-- The loop over the bits of a long code makes the nodes that are missing. -/
theorem descend_ok (hGood : Good sizes) (hLength : sizes.length ≤ maxSymbolsCnt) (k i : Nat)
    (h : Grown sizes (n + 1) n nodes lookup tree) (hSize : l + k < sizes.getD n 0)
    (hNode : nodes[i]? = some (l, codeword sizes n % 2 ^ l)) :
    ∃ i' tree' nodes',
      descend k (codeword sizes n / 2 ^ l) (2 * i) tree (2 * nodes.length) =
        .ok (codeword sizes n / 2 ^ (l + k), 2 * i', tree', 2 * nodes'.length) ∧
      nodes'[i']? = some (l + k, codeword sizes n % 2 ^ (l + k)) ∧
      Grown sizes (n + 1) n nodes' lookup tree' := by
  induction k generalizing l i nodes tree with
  | zero => exact ⟨i, tree, nodes, rfl, hNode, h⟩
  | succ k ih =>
    have hBit : codeword sizes n / 2 ^ l % 2 < 2 := Nat.mod_lt _ (by decide)
    have hPlace := child_of_bits hNode
    have hNext : codeword sizes n / 2 ^ l / 2 = codeword sizes n / 2 ^ (l + 1) := by
      rw [Nat.div_div_eq_div_mul, pow_succ]
    have hAbove : Above sizes n (l + 1) (codeword sizes n % 2 ^ (l + 1)) := ⟨by omega, rfl⟩
    obtain ⟨e, hEntry⟩ := h.exists_entry hGood hLength (index_lt hNode) hBit
    have hSum : l + (k + 1) = l + 1 + k := by omega
    simp only [descend, hEntry, hSum, hNext]
    rcases h.enter hGood.fits hAbove hPlace hEntry with ⟨i', hNode', rfl⟩ | ⟨rfl, hShape, hClosed,
      hHolds⟩
    · exact ih i' h (by omega) hNode'
    · have hIndex : 2 * i + codeword sizes n / 2 ^ l % 2 < tree.length :=
        (List.getElem?_eq_some_iff.1 hEntry).1
      have hLast : (nodes ++ [(l + 1, codeword sizes n % 2 ^ (l + 1))]).length =
          nodes.length + 1 := by simp
      have hMade : Grown sizes (n + 1) n (nodes ++ [(l + 1, codeword sizes n % 2 ^ (l + 1))]) lookup
          (tree.set (2 * i + codeword sizes n / 2 ^ l % 2) (nodeAt (2 * nodes.length))) :=
        ⟨h.lookupSize, by rw [List.length_set, h.treeSize], hShape, hClosed,
          by rwa [entryAt_setTree hIndex]⟩
      obtain ⟨i', tree', nodes', hRun, hNode', hGrown⟩ :=
        ih nodes.length hMade (by omega) List.getElem?_concat_length
      rw [hLast] at hRun
      exact ⟨i', tree', nodes', hRun, hNode', hGrown⟩

/-- Nothing else is where a code ends. -/
theorem Grown.empty_at_end (hFits : Fits 15 sizes) (h : Grown sizes (n + 1) n nodes lookup tree)
    (hSize : sizes.getD n 0 = l) (hl : l ≠ 0) (hPlace : Place nodes l (codeword sizes n) slot)
    (hEntry : entryAt lookup tree slot = some e) : e = .zero := by
  have hUsed : sizes.getD n 0 ≠ 0 := by omega
  cases h.holds.entry hPlace hEntry with
  | node hNode =>
    obtain ⟨j, -, hAbove⟩ := h.shape.above (List.mem_of_getElem? hNode)
    exact absurd (begins_codeword hUsed)
      (hAbove.not_begins hFits (Nat.mod_eq_of_lt (hPlace.lt h.shape)) hSize.le)
  | leaf hj hLeaf =>
    have hSame := hFits.begins_unique hLeaf.1 (begins_codeword hUsed)
    omega
  | empty => rfl

/-- The entry of a long code is written. -/
theorem Grown.finish {i : Nat} (hGood : Good sizes) (hLength : sizes.length ≤ maxSymbolsCnt)
    (h : Grown sizes (n + 1) n nodes lookup tree) (hSize : sizes.getD n 0 = l + 1)
    (hLong : fastLookupBits ≤ l) (hNode : nodes[i]? = some (l, codeword sizes n % 2 ^ l)) :
    tree[2 * i + codeword sizes n / 2 ^ l % 2]? = some .zero ∧
      Grown sizes (n + 1) (n + 1) nodes lookup
        (tree.set (2 * i + codeword sizes n / 2 ^ l % 2) ⟨n, sizes.getD n 0, false⟩) := by
  have hBit : codeword sizes n / 2 ^ l % 2 < 2 := Nat.mod_lt _ (by decide)
  have hWhole : codeword sizes n % 2 ^ (l + 1) = codeword sizes n :=
    Nat.mod_eq_of_lt (hSize ▸ codeword_lt)
  have hPlace := child_of_bits hNode
  rw [hWhole] at hPlace
  obtain ⟨e, hEntry⟩ := h.exists_entry hGood hLength (index_lt hNode) hBit
  have hEmpty := h.empty_at_end hGood.fits hSize (Nat.succ_ne_zero l) hPlace hEntry
  subst hEmpty
  have hIndex := (List.getElem?_eq_some_iff.1 hEntry).1
  refine ⟨hEntry, h.lookupSize, by rw [List.length_set, h.treeSize], h.shape, ?_, ?_⟩
  · intro j l' w' hj hAbove hLevel
    rcases Nat.lt_or_eq_of_le (Nat.le_of_lt_succ hj) with hLess | rfl
    · exact h.closed hLess hAbove hLevel
    · have hAncestor := h.shape.ancestor (List.mem_of_getElem? hNode) hLevel
        (by have := hAbove.1; omega)
      rw [Nat.mod_mod_of_dvd _ (pow_dvd_pow 2 (by have := hAbove.1; omega)), hAbove.2] at hAncestor
      exact hAncestor
  -- the leaf is the only entry that changes
  · refine h.holds.addSymbol ?_ ?_
    · intro l' w' slot' e hPlace' hEntry'
      rw [entryAt_setTree hIndex] at hEntry'
      by_cases hSlot : slot' = .tree (2 * i + codeword sizes n / 2 ^ l % 2)
      · subst hSlot
        obtain ⟨rfl, rfl⟩ := (hPlace'.inj h.shape hPlace).1 rfl
        rw [Function.update_self] at hEntry'
        cases hEntry'
        exact Or.inl ⟨⟨begins_codeword (by omega), Or.inl hSize⟩, rfl⟩
      · rw [Function.update_of_ne hSlot] at hEntry'
        refine Or.inr ⟨?_, hEntry'⟩
        rintro ⟨hBegins, hLevel⟩
        have hl : l' = l + 1 := by omega
        subst hl
        refine hSlot ((hPlace'.inj h.shape hPlace).2 ⟨rfl, ?_⟩)
        rw [← hBegins.2, hSize, Nat.mod_eq_of_lt (hPlace'.lt h.shape)]
    · intro k hk
      rw [entryAt_setTree hIndex, Function.update_of_ne]
      have := index_lt hNode
      intro hSame
      injection hSame
      omega

/-- Up to the first eight bits of a long code. -/
theorem Grown.first (hFits : Fits 15 sizes) (h : Grown sizes n n nodes lookup tree)
    (hLong : fastLookupBits < sizes.getD n 0) :
    ∃ e, lookup[codeword sizes n % 2 ^ fastLookupBits]? = some e ∧ e.size = 0 ∧
      ((∃ i, nodes[i]? = some (fastLookupBits, codeword sizes n % 2 ^ fastLookupBits) ∧
          e = nodeAt (2 * i)) ∨
        e = .zero ∧ Grown sizes (n + 1) n
          (nodes ++ [(fastLookupBits, codeword sizes n % 2 ^ fastLookupBits)])
          (lookup.set (codeword sizes n % 2 ^ fastLookupBits) (nodeAt (2 * nodes.length)))
            tree) := by
  have hMod : codeword sizes n % 2 ^ fastLookupBits < 2 ^ fastLookupBits :=
    Nat.mod_lt _ (by decide)
  have hIndex : codeword sizes n % 2 ^ fastLookupBits < lookup.length := by rwa [h.lookupSize]
  have hMore : Grown sizes (n + 1) n nodes lookup tree :=
    ⟨h.lookupSize, h.treeSize, h.shape.mono (Nat.le_succ n), h.closed, h.holds⟩
  have hEntry := List.getElem?_eq_getElem hIndex
  refine ⟨_, hEntry, ?_⟩
  rcases hMore.enter hFits ⟨hLong, rfl⟩ (.root hMod) hEntry with ⟨i, hNode, hEq⟩ |
    ⟨hEq, hShape, hClosed, hHolds⟩
  · exact ⟨by rw [hEq]; rfl, Or.inl ⟨i, hNode, hEq⟩⟩
  · refine ⟨by rw [hEq]; rfl, Or.inr ⟨hEq, ?_, h.treeSize, hShape, hClosed, ?_⟩⟩
    · rw [List.length_set, h.lookupSize]
    · rwa [entryAt_setLookup hIndex]

theorem insertLong_ok {b : Builder} (hGood : Good sizes)
    (hLength : sizes.length ≤ maxSymbolsCnt) (h : Grown sizes n n nodes b.lookup b.tree)
    (hNext : b.nextCode = 2 * nodes.length) (hLong : fastLookupBits < sizes.getD n 0) :
    ∃ lookup tree nodes',
      insertLong b n (sizes.getD n 0) (codeword sizes n) =
        .ok { b with lookup, tree, nextCode := 2 * nodes'.length } ∧
      Grown sizes (n + 1) (n + 1) nodes' lookup tree := by
  obtain ⟨e, hEntry, hSize, hFirst⟩ := h.first hGood.fits hLong
  obtain ⟨i, nodes₁, lookup, hStart, hNode, hGrown⟩ : ∃ i nodes₁ lookup,
      (if e.tree then (e.code, b.lookup, b.nextCode)
        else (b.nextCode, b.lookup.set (codeword sizes n % 2 ^ fastLookupBits) (nodeAt b.nextCode),
          b.nextCode + 2)) = (2 * i, lookup, 2 * nodes₁.length) ∧
      nodes₁[i]? = some (fastLookupBits, codeword sizes n % 2 ^ fastLookupBits) ∧
      Grown sizes (n + 1) n nodes₁ lookup b.tree := by
    rw [hNext]
    rcases hFirst with ⟨i, hNode, rfl⟩ | ⟨rfl, hGrown⟩
    · exact ⟨i, nodes, b.lookup, rfl, hNode, h.lookupSize, h.treeSize,
        h.shape.mono (Nat.le_succ n), h.closed, h.holds⟩
    · refine ⟨nodes.length, _, _, ?_, List.getElem?_concat_length, hGrown⟩
      simp [HuffmanSymbol.zero, Nat.mul_add]
  have hSteps : fastLookupBits + (sizes.getD n 0 - (fastLookupBits + 1)) = sizes.getD n 0 - 1 := by
    omega
  obtain ⟨i', tree, nodes', hRun, hNode', hGrown'⟩ :=
    descend_ok hGood hLength (sizes.getD n 0 - (fastLookupBits + 1)) i hGrown (by omega) hNode
  rw [hSteps] at hRun hNode'
  obtain ⟨hEnd, hFinal⟩ := hGrown'.finish hGood hLength (by omega) (by omega) hNode'
  have hRoom := hGrown'.shape.length_le hGood hLength
  refine ⟨lookup, _, nodes', ?_, hFinal⟩
  unfold insertLong
  simp only [hEntry, hSize, ne_eq, not_true_eq_false, if_false, hStart, hRun, hEnd]
  rw [if_neg (by omega)]
  rfl

theorem fillLookup_eq (hs : HuffmanSymbol) {step : Nat} (hStep : 0 < step) (fuel rev k : Nat)
    (hSize : lookup.length = 2 ^ fastLookupBits) (hFuel : 2 ^ fastLookupBits ≤ rev + fuel)
    (hk : k < 2 ^ fastLookupBits) :
    (fillLookup hs step fuel rev lookup)[k]? =
      if rev ≤ k ∧ k % step = rev % step then some hs else lookup[k]? := by
  induction fuel generalizing rev lookup with
  | zero => rw [fillLookup, if_neg (by omega)]
  | succ fuel ih =>
    rw [fillLookup]
    split
    · rw [ih (rev + step) (by rw [List.length_set, hSize]) (by omega), Nat.add_mod_right]
      by_cases hHere : k = rev
      · subst hHere
        rw [if_neg (by omega), if_pos ⟨Nat.le_refl k, rfl⟩, List.getElem?_set_self (by omega)]
      · rw [List.getElem?_set_ne (Ne.symm hHere)]
        -- two numbers that are the same up to steps are a step apart
        have hApart : rev ≤ k ∧ k % step = rev % step ↔ rev + step ≤ k ∧ k % step = rev % step := by
          constructor
          · rintro ⟨hLe, hMod⟩
            have hDvd : step ∣ k - rev := (Nat.modEq_iff_dvd' hLe).1 hMod.symm
            have hStepLe := Nat.le_of_dvd (by omega) hDvd
            exact ⟨by omega, hMod⟩
          · rintro ⟨hLe, hMod⟩
            exact ⟨by omega, hMod⟩
        rw [if_congr hApart rfl rfl]
    · rw [if_neg (by omega)]

theorem length_fillLookup (hs : HuffmanSymbol) (step fuel rev : Nat) :
    (fillLookup hs step fuel rev lookup).length = lookup.length := by
  induction fuel generalizing rev lookup with
  | zero => rfl
  | succ fuel ih =>
    rw [fillLookup]
    split
    · rw [ih, List.length_set]
    · rfl

/-- A symbol without a long code needs no nodes. -/
theorem Grown.next (h : Grown sizes n n nodes lookup tree) {lookup' : List HuffmanSymbol}
    (hSize : sizes.getD n 0 ≤ fastLookupBits) (hLength : lookup'.length = 2 ^ fastLookupBits)
    (hLookup : ∀ w < 2 ^ fastLookupBits, lookup'[w]? =
      if Begins sizes n w then some ⟨n, sizes.getD n 0, false⟩ else lookup[w]?) :
    Grown sizes (n + 1) (n + 1) nodes lookup' tree := by
  refine ⟨hLength, h.treeSize, h.shape.mono (Nat.le_succ n), ?_, ?_⟩
  · intro j l w hj hAbove hLevel
    rcases Nat.lt_or_eq_of_le (Nat.le_of_lt_succ hj) with hLess | rfl
    · exact h.closed hLess hAbove hLevel
    · have := hAbove.1
      omega
  · refine h.holds.addSymbol ?_ fun _ => rfl
    intro l w slot e hPlace hEntry
    cases hPlace with
    | root hw =>
      have hHere : lookup'[w]? = some e := hEntry
      rw [hLookup w hw] at hHere
      by_cases hBegins : Begins sizes n w
      · rw [if_pos hBegins] at hHere
        cases hHere
        exact Or.inl ⟨⟨hBegins, Or.inr ⟨rfl, hSize⟩⟩, rfl⟩
      · rw [if_neg hBegins] at hHere
        exact Or.inr ⟨fun hLeaf => hBegins hLeaf.1, hHere⟩
    | child hNode hb =>
      refine Or.inr ⟨?_, hEntry⟩
      have hLevel := h.shape.level (List.mem_of_getElem? hNode)
      rintro ⟨-, hl⟩
      omega

theorem Grown.short (h : Grown sizes n n nodes lookup tree) (hUsed : sizes.getD n 0 ≠ 0)
    (hSize : sizes.getD n 0 ≤ fastLookupBits) :
    Grown sizes (n + 1) (n + 1) nodes
      (fillLookup ⟨n, sizes.getD n 0, false⟩ (2 ^ sizes.getD n 0) (2 ^ fastLookupBits)
        (codeword sizes n) lookup) tree := by
  refine h.next hSize (by rw [length_fillLookup, h.lookupSize]) fun w hw => ?_
  rw [fillLookup_eq _ (Nat.two_pow_pos _) _ _ _ h.lookupSize (by omega) hw,
    Nat.mod_eq_of_lt codeword_lt]
  refine if_congr ?_ rfl rfl
  constructor
  · rintro ⟨-, hMod⟩
    exact ⟨hUsed, hMod⟩
  · rintro ⟨-, hMod⟩
    exact ⟨hMod ▸ Nat.mod_le _ _, hMod⟩

end

/-- What the loop over the symbols keeps. -/
structure Built (sizes : List Nat) (n : Nat) (nodes : List (Nat × Nat)) (b : Builder) : Prop where
  grown : Grown sizes n n nodes b.lookup b.tree
  next  : b.nextCode = 2 * nodes.length
  codes : ∀ s, s ≠ 0 → s ≤ 15 →
    b.symsNext[s]? = some (firstCode sizes.count s + (sizes.take n).count s)

section

variable {sizes : List Nat} {nodes : List (Nat × Nat)} {n : Nat} {b : Builder}

theorem take_succ (hn : n < sizes.length) : sizes.take (n + 1) = sizes.take n ++
    [sizes.getD n 0] := by
  rw [List.getD_eq_getElem _ _ hn, List.take_succ_eq_append_getElem hn]

/-- The next code of a size is one more. -/
theorem Built.codes_set (h : Built sizes n nodes b) (hn : n < sizes.length)
    (hUsed : sizes.getD n 0 ≠ 0) (hLe : sizes.getD n 0 ≤ 15) {s : Nat} (hs : s ≠ 0) (h15 : s ≤ 15) :
    (b.symsNext.set (sizes.getD n 0) (codeAt sizes n + 1))[s]? =
      some (firstCode sizes.count s + (sizes.take (n + 1)).count s) := by
  rw [take_succ hn, List.count_append]
  by_cases hSame : sizes.getD n 0 = s
  · have hIndex := (List.getElem?_eq_some_iff.1 (h.codes _ hUsed hLe)).1
    rw [hSame] at hIndex
    rw [hSame, List.getElem?_set_self hIndex, codeAt, hSame, List.count_singleton_self,
      Nat.add_assoc]
  · rw [List.getElem?_set_ne hSame, h.codes s hs h15,
      List.count_singleton, if_neg (by simpa using hSame), Nat.add_zero]

theorem insertSymbol_ok (hGood : Good sizes) (hLength : sizes.length ≤ maxSymbolsCnt)
    (hn : n < sizes.length) (h : Built sizes n nodes b) :
    ∃ b' nodes', insertSymbol b n (sizes.getD n 0) = .ok b' ∧ Built sizes (n + 1) nodes' b' := by
  by_cases hUsed : sizes.getD n 0 = 0
  · refine ⟨b, nodes, by rw [insertSymbol, if_pos hUsed], ?_, h.next, ?_⟩
    · refine h.grown.next (by omega) h.grown.lookupSize fun w hw => ?_
      rw [if_neg fun hBegins => hBegins.1 hUsed]
    · intro s hs h15
      rw [take_succ hn, List.count_append, hUsed, List.count_singleton,
        if_neg (by simpa using Ne.symm hs)]
      exact h.codes s hs h15
  · have hLe := hGood.le n
    have hCode : b.symsNext[sizes.getD n 0]? = some (codeAt sizes n) := h.codes _ hUsed hLe
    have hRev : revCode (sizes.getD n 0) (codeAt sizes n) 0 = codeword sizes n := by
      rw [revCode_eq, Nat.zero_mul, Nat.zero_add, codeword]
    unfold insertSymbol
    rw [if_neg hUsed, if_neg (by omega)]
    simp only [hCode, hRev]
    by_cases hSize : sizes.getD n 0 ≤ fastLookupBits
    · rw [if_pos hSize]
      exact ⟨_, nodes, rfl, h.grown.short hUsed hSize, h.next, fun s => h.codes_set hn hUsed hLe⟩
    · obtain ⟨lookup, tree, nodes', hRun, hGrown⟩ :=
        insertLong_ok
          (b := { b with symsNext := b.symsNext.set (sizes.getD n 0) (codeAt sizes n + 1) })
          hGood hLength h.grown h.next (Nat.not_le.1 hSize)
      rw [if_neg hSize]
      exact ⟨_, nodes', hRun, hGrown, rfl, fun s => h.codes_set hn hUsed hLe⟩

theorem insertSymbols_ok (hGood : Good sizes) (hLength : sizes.length ≤ maxSymbolsCnt)
    (hn : n ≤ sizes.length) (h : Built sizes n nodes b) :
    ∃ b' nodes', insertSymbols b n (sizes.drop n) = .ok b' ∧
      Built sizes sizes.length nodes' b' := by
  obtain ⟨k, hk⟩ : ∃ k, n + k = sizes.length := ⟨sizes.length - n, by omega⟩
  induction k generalizing n nodes b with
  | zero =>
    obtain rfl : n = sizes.length := by omega
    refine ⟨b, nodes, ?_, h⟩
    rw [List.drop_length, insertSymbols]
  | succ k ih =>
    have hLt : n < sizes.length := by omega
    obtain ⟨b', nodes', hRun, hBuilt⟩ := insertSymbol_ok hGood hLength hLt h
    rw [List.drop_eq_getElem_cons hLt, ← List.getD_eq_getElem _ 0 hLt, insertSymbols, hRun]
    exact ih (by omega) hBuilt (by omega)

end

/-! ## The tables of a list of sizes -/

/-- The sizes of the codes of the symbols of a table. -/
def HuffmanTable.sizes (t : HuffmanTable) : List Nat := t.codeSize.take t.symsCnt

/-- `lookup` and `tree` are those of the codes. -/
structure HuffmanTable.Decodes (t : HuffmanTable) : Prop where
  good  : Good t.sizes
  few   : t.sizes.length ≤ maxSymbolsCnt
  grown : ∃ nodes, Grown t.sizes t.sizes.length t.sizes.length nodes t.lookup t.tree

/-- The bits go on like a code that is longer than `FAST_LOOKUP_BITS`, but begin with none. -/
def DeadEnd (sizes : List Nat) (x : Nat) : Prop :=
  (∃ j, Above sizes j fastLookupBits (x % 2 ^ fastLookupBits)) ∧ ∀ j, ¬ Begins sizes j x

section

variable {sizes : List Nat} {t : HuffmanTable} {x : Nat}

theorem perSize_withSizes (sizes : List Nat) :
    (HuffmanTable.withSizes sizes).perSize = sizes.count := by
  funext i
  simp [HuffmanTable.perSize, HuffmanTable.withSizes]

/-- The check of `decode_tables`. -/
theorem good_iff (hLe : ∀ s ∈ sizes, s ≤ 15) :
    Good sizes ↔ ¬ ((HuffmanTable.withSizes sizes).symsNext 16 ≠ 0x10000 ∧
      1 < (HuffmanTable.withSizes sizes).symsUsed) := by
  have hUsed : (HuffmanTable.withSizes sizes).symsUsed = sizes.countP (· ≠ 0) := by
    rw [← sum_count hLe, HuffmanTable.symsUsed, perSize_withSizes]
    rfl
  rw [hUsed, HuffmanTable.symsNext_eq, perSize_withSizes]
  constructor
  · rintro (hComplete | hSingle) ⟨hTotal, hMany⟩
    · exact hTotal hComplete.total
    · have := hSingle.one
      omega
  · intro hCheck
    by_cases hTotal : firstCode sizes.count 16 = 0x10000
    · exact .complete ⟨hLe, hTotal⟩
    · exact .single ⟨hLe, by
        by_contra hMany
        exact hCheck ⟨hTotal, by omega⟩⟩

theorem built_start :
    Built sizes 0 [] ⟨HuffmanTable.zero.lookup, HuffmanTable.zero.tree, 0,
      (List.range 17).map (HuffmanTable.withSizes sizes).symsNext⟩ := by
  refine ⟨⟨by simp [HuffmanTable.zero], by simp [HuffmanTable.zero], ?_, ?_, ?_, ?_⟩, rfl, ?_⟩
  · exact ⟨List.nodup_nil, by simp, by simp, by simp⟩
  · intro j l w hj
    omega
  · intro l w slot e hPlace hEntry
    cases hPlace with
    | root hw =>
      simp only [entryAt, HuffmanTable.zero, List.getElem?_replicate] at hEntry
      rw [if_pos hw] at hEntry
      cases hEntry
      exact .empty (by simp) (by simp)
    | child hNode => simp at hNode
  · intro k e hk hEntry
    simp only [entryAt, HuffmanTable.zero, List.getElem?_replicate] at hEntry
    split at hEntry
    · cases hEntry
      rfl
    · cases hEntry
  · intro s hs h15
    have hIndex : s < 17 := by omega
    simp [List.getElem?_range hIndex, HuffmanTable.symsNext_eq, perSize_withSizes]

/-- The tables of a code are built. -/
theorem buildTable_ok (hGood : Good sizes) (hLength : sizes.length ≤ maxSymbolsCnt) :
    ∃ t, buildTable (.withSizes sizes) = .ok t ∧ t.sizes = sizes ∧ t.Decodes := by
  have hLe := hGood.fits.le
  have hTake : (HuffmanTable.withSizes sizes).codeSize.take sizes.length = sizes := by
    simp [HuffmanTable.withSizes]
  obtain ⟨b, nodes, hRun, hBuilt⟩ :=
    insertSymbols_ok hGood hLength (Nat.zero_le _) built_start
  have hCheck := (good_iff hLe).1 hGood
  have hRoom : ¬ (HuffmanTable.withSizes sizes).codeSize.length < sizes.length := by
    simp [HuffmanTable.withSizes]
  have hSizes : ({ HuffmanTable.withSizes sizes with lookup := b.lookup, tree := b.tree }
      : HuffmanTable).sizes = sizes := hTake
  refine ⟨{ HuffmanTable.withSizes sizes with lookup := b.lookup, tree := b.tree }, ?_, hSizes,
    by rwa [hSizes], by rwa [hSizes], nodes, by rw [hSizes]; exact hBuilt.grown⟩
  have hCount : (HuffmanTable.withSizes sizes).symsCnt = sizes.length := rfl
  unfold buildTable
  rw [hCount, hTake, if_neg hRoom, if_neg (by simpa using hLe), if_neg hCheck]
  have hStart : insertSymbols ⟨(HuffmanTable.withSizes sizes).lookup,
      (HuffmanTable.withSizes sizes).tree, 0,
      (List.range 17).map (HuffmanTable.withSizes sizes).symsNext⟩ 0 sizes = .ok b := hRun
  rw [hStart]
  rfl

/-- Other sizes are not accepted. -/
theorem buildTable_raises (hLe : ∀ s ∈ sizes, s ≤ 15) (hBad : ¬ Good sizes) :
    buildTable (.withSizes sizes) = .error (.raise .other) := by
  have hTake : (HuffmanTable.withSizes sizes).codeSize.take sizes.length = sizes := by
    simp [HuffmanTable.withSizes]
  have hRoom : ¬ (HuffmanTable.withSizes sizes).codeSize.length < sizes.length := by
    simp [HuffmanTable.withSizes]
  have hCheck := Decidable.not_not.1 fun hNot => hBad ((good_iff hLe).2 hNot)
  have hCount : (HuffmanTable.withSizes sizes).symsCnt = sizes.length := rfl
  unfold buildTable
  rw [hCount, hTake, if_neg hRoom, if_neg (by simpa using hLe), if_pos hCheck]

/-! ## Symbols -/

variable {nodes : List (Nat × Nat)} {lookup tree : List HuffmanSymbol} {l i : Nat}

/-- Where there is nothing, no code ends, nor does one go on. -/
theorem Grown.not_below (h : Grown sizes sizes.length sizes.length nodes lookup tree)
    (hLevel : fastLookupBits ≤ l) (hMem : (l, x % 2 ^ l) ∉ nodes) (j : Nat) :
    ¬ Above sizes j l (x % 2 ^ l) := by
  intro hAbove
  exact hMem (h.closed (lt_of_size hAbove.used) hAbove hLevel)

theorem Grown.not_begins (h : Grown sizes sizes.length sizes.length nodes lookup tree)
    (hLevel : fastLookupBits ≤ l) (hMem : (l, x % 2 ^ l) ∉ nodes)
    (hNone : ∀ j < sizes.length, ¬ Leaf sizes j l (x % 2 ^ l))
    (hBefore : ∀ j, sizes.getD j 0 < l → ¬ (fastLookupBits < l ∧ Begins sizes j x)) (j : Nat) :
    ¬ Begins sizes j x := by
  intro hBegins
  rcases Nat.lt_or_ge l (sizes.getD j 0) with hLong | hEnds
  · refine h.not_below hLevel hMem j ⟨hLong, ?_⟩
    rw [← hBegins.2, Nat.mod_mod_of_dvd _ (pow_dvd_pow 2 hLong.le)]
  · by_cases hHere : sizes.getD j 0 = l ∨ l = fastLookupBits
    · refine hNone j (lt_of_size hBegins.1) ⟨hBegins.congr hEnds (Nat.mod_mod _ _), ?_⟩
      omega
    · exact hBefore j (by omega) ⟨by omega, hBegins⟩

/-- The loop over the tree finds the code, and its assertion fails when there is none. -/
theorem walkTree_cases (hGood : Good sizes) (hLength : sizes.length ≤ maxSymbolsCnt)
    (h : Grown sizes sizes.length sizes.length nodes lookup tree) (fuel : Nat)
    (hFuel : l + fuel = 15) (hNode : nodes[i]? = some (l, x % 2 ^ l)) :
    (∃ j, Begins sizes j x ∧
      walkTree tree x fuel (nodeAt (2 * i)) = .ok ⟨j, sizes.getD j 0, false⟩) ∨
    (∀ j, ¬ Begins sizes j x) ∧ walkTree tree x fuel (nodeAt (2 * i)) = .error .fault := by
  induction fuel generalizing l i with
  | zero =>
    obtain ⟨j, -, hAbove⟩ := h.shape.above (List.mem_of_getElem? hNode)
    have := hGood.le j
    have := hAbove.1
    omega
  | succ fuel ih =>
    have hBit : x / 2 ^ l % 2 < 2 := Nat.mod_lt _ (by decide)
    have hLevel := h.shape.level (List.mem_of_getElem? hNode)
    have hRoom := h.shape.length_le hGood hLength
    have hIndex := index_lt hNode
    have hShift : x >>> (14 - fuel) = x / 2 ^ l := by
      rw [Nat.shiftRight_eq_div_pow]
      congr 2
      omega
    have hCode : ¬ maxSymbolsCnt * 2 - 2 < (nodeAt (2 * i)).code := by
      simp only [nodeAt]
      omega
    obtain ⟨e, hEntry⟩ := h.exists_entry hGood hLength hIndex hBit
    have hStep : walkTree tree x (fuel + 1) (nodeAt (2 * i)) =
        if e.tree then walkTree tree x fuel e
        else if e.size = 15 - fuel then .ok e else .error .fault := by
      rw [walkTree, if_neg hCode, hShift]
      simp only [nodeAt, hEntry]
    rw [hStep]
    cases h.holds.entry (child_of_bits hNode) hEntry with
    | node hNode' => exact ih (by omega) hNode'
    | @leaf j hj hLeaf =>
      have hSize : sizes.getD j 0 = 15 - fuel := by
        have := hLeaf.2
        omega
      exact Or.inl ⟨j, hLeaf.begins rfl, by simp [← hSize]⟩
    | empty hMem hNone =>
      refine Or.inr ⟨?_, ?_⟩
      · refine h.not_begins (by omega) hMem hNone fun j hj hBegins => ?_
        obtain ⟨k, -, hAbove⟩ := h.shape.above (List.mem_of_getElem? hNode)
        exact hAbove.not_begins hGood.fits rfl (by omega) hBegins.2
      · have hDepth : ¬ 0 = 15 - fuel := by omega
        simp [HuffmanSymbol.zero, hDepth]

/-- What is at the beginning of the bits: a code, nothing, or a dead end. -/
theorem HuffmanTable.Decodes.lookup_cases (h : t.Decodes) (x : Nat) :
    (∃ j, Begins t.sizes j x ∧ lookupSymbol t x = .ok ⟨j, t.sizes.getD j 0, false⟩) ∨
      (∀ j, ¬ Begins t.sizes j x) ∧
        (¬ DeadEnd t.sizes x ∧ lookupSymbol t x = .ok .zero ∨
          DeadEnd t.sizes x ∧ lookupSymbol t x = .error .fault) := by
  obtain ⟨nodes, hGrown⟩ := h.grown
  have hMod : x % 2 ^ fastLookupBits < 2 ^ fastLookupBits := Nat.mod_lt _ (by decide)
  have hIndex : x % 2 ^ fastLookupBits < t.lookup.length := by rwa [hGrown.lookupSize]
  have hEntry := List.getElem?_eq_getElem hIndex
  generalize t.lookup[x % 2 ^ fastLookupBits] = e at hEntry
  have hStep : lookupSymbol t x =
      if e.tree then walkTree t.tree x (15 - fastLookupBits) e else .ok e := by
    rw [lookupSymbol]
    simp only [hEntry]
  rw [hStep]
  cases hGrown.holds.entry (.root hMod) hEntry with
  | @node i hNode =>
    obtain ⟨j, -, hAbove⟩ := hGrown.shape.above (List.mem_of_getElem? hNode)
    rcases walkTree_cases h.good h.few hGrown (15 - fastLookupBits) rfl
      hNode with hFound | ⟨hNone, hFault⟩
    · exact Or.inl hFound
    · exact Or.inr ⟨hNone, Or.inr ⟨⟨⟨j, hAbove⟩, hNone⟩, hFault⟩⟩
  | @leaf j hj hLeaf => exact Or.inl ⟨j, hLeaf.begins rfl, rfl⟩
  | empty hMem hNone =>
    refine Or.inr ⟨?_, Or.inl ⟨?_, rfl⟩⟩
    · exact hGrown.not_begins (Nat.le_refl _) hMem hNone fun j hj hBegins =>
        absurd hBegins.1 (Nat.lt_irrefl _)
    · rintro ⟨⟨j, hAbove⟩, -⟩
      exact hGrown.not_below (Nat.le_refl _) hMem j hAbove

end

end TcfAgent.Inflate

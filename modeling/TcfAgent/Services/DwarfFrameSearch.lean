import TcfAgent.Lib.BinarySearch
import TcfAgent.Framework.LocationCommands

/-!
# Where the frame information of an address is

The table of frame ranges and the binary search in it, from `services/dwarfframe.c`:
`cmp_frame_info_ranges`, the loop of `read_frame_info_section`, and what `read_frame_fde` asserts
about the range that it is called for.

Main results:

* `select_sound`       — a range that is selected contains the address;
* `selects_containing` — when the range of an address is selected, and when the assertion holds.
-/

namespace TcfAgent.FrameSearch

open TcfAgent.Lib
open TcfAgent.Location (Word)

/-- `FrameInfoRange` -/
structure FrameInfoRange where
  sectionIndex : Nat
  addr         : Word
  size         : Word
  offset       : Word
deriving DecidableEq, Repr

/-- `cmp_frame_info_ranges` -/
def cmpFrameInfoRanges (x y : FrameInfoRange) : Int :=
  if x.sectionIndex < y.sectionIndex then -1
  else if x.sectionIndex > y.sectionIndex then 1
  else if x.addr < y.addr then -1
  else if x.addr > y.addr then 1
  else 0

/-- The addresses of a range, as numbers that do not wrap around. -/
def FrameInfoRange.Contains (r : FrameInfoRange) (sec : Nat) (ip : Word) : Prop :=
  r.sectionIndex = sec ∧ r.addr.toNat ≤ ip.toNat ∧ ip.toNat < r.addr.toNat + r.size.toNat

instance (r : FrameInfoRange) (sec : Nat) (ip : Word) : Decidable (r.Contains sec ip) :=
  inferInstanceAs (Decidable (_ ∧ _ ∧ _))

/-- A sorted table; the ranges do not overlap, and end at the top of the address space at the
latest. -/
structure FrameTable where
  ranges   : List FrameInfoRange
  sorted   : ranges.Pairwise fun x y => cmpFrameInfoRanges x y ≤ 0
  inSpace  : ∀ r ∈ ranges, r.addr.toNat + r.size.toNat ≤ 2 ^ 64
  disjoint : ranges.Pairwise fun x y => ∀ sec ip, ¬ (x.Contains sec ip ∧ y.Contains sec ip)

/-- A round of the loop of `read_frame_info_section`: the range is before the address, behind it, or
selected. -/
def compare (sec : Nat) (ip : Word) (r : FrameInfoRange) : Ordering :=
  if sec < r.sectionIndex then .lt
  else if sec > r.sectionIndex then .gt
  else if r.addr > ip then .lt
  else if r.addr + r.size < r.addr then .eq
  else if r.addr + r.size ≤ ip then .gt
  else .eq

/-- The round for an index; every index is one of the table. -/
def probe (ranges : List FrameInfoRange) (sec : Nat) (ip : Word) (k : Nat) : Ordering :=
  match ranges[k]? with
  | some r => compare sec ip r
  | none => .lt

/-- The loop of `read_frame_info_section`: the index for which `read_frame_fde` is called. -/
def select (ranges : List FrameInfoRange) (sec : Nat) (ip : Word) : Option Nat :=
  bsearch (probe ranges sec ip) ranges.length 0 ranges.length

/-- `assert(Addr <= IP && Addr + Range > IP)` in `read_frame_fde`. -/
def FdeAssertion (r : FrameInfoRange) (ip : Word) : Prop := r.addr ≤ ip ∧ r.addr + r.size > ip

instance (r : FrameInfoRange) (ip : Word) : Decidable (FdeAssertion r ip) :=
  inferInstanceAs (Decidable (_ ∧ _))

section

variable {sec : Nat} {ip : Word} {r x y : FrameInfoRange}

/-- The end of a range that wraps around is 0. -/
theorem toNat_end (hSpace : r.addr.toNat + r.size.toNat ≤ 2 ^ 64) :
    (r.addr + r.size).toNat =
      if r.addr.toNat + r.size.toNat = 2 ^ 64 then 0 else r.addr.toNat + r.size.toNat := by
  rw [BitVec.toNat_add]
  split
  · rename_i hTop
    rw [hTop]
    rfl
  · exact Nat.mod_eq_of_lt (by omega)

theorem compare_lt :
    compare sec ip r = .lt ↔ sec < r.sectionIndex ∨ (sec = r.sectionIndex ∧ ip < r.addr) := by
  unfold compare
  split
  · rename_i hSec
    simp [hSec]
  · rename_i hSec
    split
    · rename_i hOther
      have hNe : sec ≠ r.sectionIndex := by omega
      simp [hSec, hNe]
    · rename_i hOther
      have hEq : sec = r.sectionIndex := by omega
      subst hEq
      split
      · rename_i hBehind
        simpa using hBehind
      · rename_i hBehind
        have hNot : ¬ ip < r.addr := hBehind
        split
        · simp [hNot]
        · split <;> simp [hNot]

/-- A range is selected when it contains the address. -/
theorem compare_eq (hSpace : r.addr.toNat + r.size.toNat ≤ 2 ^ 64) :
    compare sec ip r = .eq ↔ r.Contains sec ip := by
  have hEnd := toNat_end hSpace
  have hIp := ip.isLt
  unfold compare FrameInfoRange.Contains
  split
  · rename_i hSec
    simp [hSec.ne']
  · rename_i hSec
    split
    · rename_i hOther
      simp [hOther.ne]
    · rename_i hOther
      have hEq : r.sectionIndex = sec := by omega
      split
      · rename_i hBehind
        have hLt : ip.toNat < r.addr.toNat := BitVec.lt_def.1 hBehind
        simp only [reduceCtorEq, hEq, true_and, false_iff, not_and]
        omega
      · rename_i hBehind
        have hLe : r.addr.toNat ≤ ip.toNat := Nat.not_lt.1 fun hLt => hBehind (BitVec.lt_def.2 hLt)
        split
        -- a range up to the last address: its end wraps to zero
        · rename_i hWrap
          have hLt : (r.addr + r.size).toNat < r.addr.toNat := BitVec.lt_def.1 hWrap
          have hTop : r.addr.toNat + r.size.toNat = 2 ^ 64 := by
            by_contra hNot
            rw [if_neg hNot] at hEnd
            omega
          simp only [hEq, hLe, true_and, true_iff]
          omega
        · rename_i hWrap
          have hGe : r.addr.toNat ≤ (r.addr + r.size).toNat :=
            Nat.not_lt.1 fun hLt => hWrap (BitVec.lt_def.2 hLt)
          have hNoTop : (r.addr + r.size).toNat = r.addr.toNat + r.size.toNat := by
            split at hEnd
            · omega
            · exact hEnd
          split
          · rename_i hBefore
            have hEndLe : (r.addr + r.size).toNat ≤ ip.toNat := BitVec.le_def.1 hBefore
            simp only [reduceCtorEq, hEq, hLe, true_and, false_iff]
            omega
          · rename_i hBefore
            have hLt : ip.toNat < (r.addr + r.size).toNat :=
              Nat.not_le.1 fun hEndLe => hBefore (BitVec.le_def.2 hEndLe)
            simp only [hEq, hLe, true_and, true_iff]
            omega

/-- The assertion holds of a range that contains the address when it does not end at the top. -/
theorem fdeAssertion_iff (hSpace : r.addr.toNat + r.size.toNat ≤ 2 ^ 64)
    (hContains : r.Contains sec ip) :
    FdeAssertion r ip ↔ r.addr.toNat + r.size.toNat < 2 ^ 64 := by
  obtain ⟨-, hLow, hHigh⟩ := hContains
  have hEnd := toNat_end hSpace
  have hLowWord : r.addr ≤ ip := BitVec.le_def.2 hLow
  unfold FdeAssertion
  rw [gt_iff_lt, BitVec.lt_def, hEnd]
  simp only [hLowWord, true_and]
  split
  · omega
  · omega

theorem cmp_le (h : cmpFrameInfoRanges x y ≤ 0) :
    x.sectionIndex < y.sectionIndex ∨
      (x.sectionIndex = y.sectionIndex ∧ x.addr.toNat ≤ y.addr.toNat) := by
  unfold cmpFrameInfoRanges at h
  split at h
  · exact .inl ‹_›
  · split at h
    · omega
    · refine .inr ⟨by omega, ?_⟩
      split at h
      · rename_i hLt
        exact (BitVec.lt_def.1 hLt).le
      · split at h
        · omega
        · rename_i hGt
          exact Nat.not_lt.1 fun hLt => hGt (BitVec.lt_def.2 hLt)

/-! ## The search -/

variable {table : FrameTable} {i k : Nat}

theorem sorted_at (hLt : i < k) (hx : table.ranges[i]? = some x) (hy : table.ranges[k]? = some y) :
    (x.sectionIndex < y.sectionIndex ∨
      (x.sectionIndex = y.sectionIndex ∧ x.addr.toNat ≤ y.addr.toNat)) ∧
      ∀ sec ip, ¬ (x.Contains sec ip ∧ y.Contains sec ip) := by
  obtain ⟨hi, rfl⟩ := List.getElem?_eq_some_iff.1 hx
  obtain ⟨hk, rfl⟩ := List.getElem?_eq_some_iff.1 hy
  exact ⟨cmp_le (List.pairwise_iff_getElem.1 table.sorted i k hi hk hLt),
    List.pairwise_iff_getElem.1 table.disjoint i k hi hk hLt⟩

theorem inSpace_at (hx : table.ranges[i]? = some x) : x.addr.toNat + x.size.toNat ≤ 2 ^ 64 :=
  table.inSpace x (List.mem_of_getElem? hx)

theorem probe_at (hx : table.ranges[i]? = some x) :
    probe table.ranges sec ip i = compare sec ip x := by
  unfold probe
  rw [hx]

/-- A range that is selected contains the address. -/
theorem select_sound (h : select table.ranges sec ip = some i) :
    ∃ x, table.ranges[i]? = some x ∧ x.Contains sec ip := by
  obtain ⟨-, hLt, hProbe⟩ := bsearch_sound h
  obtain ⟨x, hx⟩ : ∃ x, table.ranges[i]? = some x := ⟨_, List.getElem?_eq_getElem hLt⟩
  rw [probe_at hx] at hProbe
  exact ⟨x, hx, (compare_eq (inSpace_at hx)).1 hProbe⟩

/-- Of the ranges behind the one that contains the address only empty ones can begin before the
address. -/
theorem empty_of_le (hLt : i < k) (hx : table.ranges[i]? = some x) (hContains : x.Contains sec ip)
    (hy : table.ranges[k]? = some y) (hSec : y.sectionIndex = sec) (hLe : y.addr ≤ ip) :
    y.size = 0 := by
  obtain ⟨hOrder, hApart⟩ := sorted_at hLt hx hy
  obtain ⟨hSecX, hLow, hHigh⟩ := hContains
  by_contra hSome
  have hPos : 0 < y.size.toNat := Nat.pos_of_ne_zero fun hZero =>
    hSome (BitVec.eq_of_toNat_eq hZero)
  have hLeNat : y.addr.toNat ≤ ip.toNat := BitVec.le_def.1 hLe
  refine hApart sec y.addr ⟨⟨hSecX, ?_, by omega⟩, hSec, Nat.le_refl _, by omega⟩
  rcases hOrder with hOrder | hOrder
  · omega
  · exact hOrder.2

/-- The ranges before the one that contains the address send the search to the right. -/
theorem probe_before (hLt : k < i) (hx : table.ranges[i]? = some x)
    (hContains : x.Contains sec ip) :
    probe table.ranges sec ip k = .gt := by
  obtain ⟨hi, -⟩ := List.getElem?_eq_some_iff.1 hx
  obtain ⟨y, hy⟩ : ∃ y, table.ranges[k]? = some y :=
    ⟨_, List.getElem?_eq_getElem (hLt.trans hi)⟩
  obtain ⟨hOrder, hApart⟩ := sorted_at hLt hy hx
  rw [probe_at hy]
  have hNotEq : compare sec ip y ≠ .eq := fun hEq =>
    hApart sec ip ⟨(compare_eq (inSpace_at hy)).1 hEq, hContains⟩
  have hNotLt : compare sec ip y ≠ .lt := by
    intro hEq
    obtain ⟨hSec, hLow, -⟩ := hContains
    rcases compare_lt.1 hEq with hBehind | ⟨hSame, hBehind⟩
    · omega
    · have hBehind := BitVec.lt_def.1 hBehind
      omega
  cases hCompare : compare sec ip y with
  | lt => exact absurd hCompare hNotLt
  | eq => exact absurd hCompare hNotEq
  | gt => rfl

theorem probe_behind (hLt : i < k) (hx : table.ranges[i]? = some x) (hContains : x.Contains sec ip)
    (hy : table.ranges[k]? = some y) :
    probe table.ranges sec ip k = .lt ↔ (y.sectionIndex = sec → y.size = 0 → ip < y.addr) := by
  obtain ⟨hOrder, -⟩ := sorted_at hLt hx hy
  have hSec := hContains.1
  rw [probe_at hy, compare_lt]
  constructor
  · rintro (hBehind | ⟨-, hBehind⟩) hSame -
    · omega
    · exact hBehind
  · intro hEmpty
    by_cases hSame : y.sectionIndex = sec
    · refine .inr ⟨hSame.symm, ?_⟩
      by_contra hNot
      have hLe : y.addr ≤ ip := BitVec.le_def.2 (Nat.not_lt.1 fun h => hNot (BitVec.lt_def.2 h))
      exact hNot (hEmpty hSame (empty_of_le hLt hx hContains hy hSame hLe))
    · exact .inl (by omega)

/-- The search comes to the range that contains the address exactly when none of the ranges that it
looks at on the way is an empty one between the beginning of that range and the address. -/
theorem select_containing (hx : table.ranges[i]? = some x) (hContains : x.Contains sec ip) :
    select table.ranges sec ip = some i ↔
      ∀ k ∈ way i table.ranges.length 0 table.ranges.length, i < k →
        ∀ y, table.ranges[k]? = some y → y.sectionIndex = sec → y.size = 0 → ip < y.addr := by
  obtain ⟨hi, -⟩ := List.getElem?_eq_some_iff.1 hx
  have hProbe : probe table.ranges sec ip i = .eq := by
    rw [probe_at hx]
    exact (compare_eq (inSpace_at hx)).2 hContains
  unfold select
  rw [bsearch_eq_some (by omega) (Nat.zero_le i) hi hProbe]
  constructor
  · intro hWay k hk hLt y hy
    exact (probe_behind hLt hx hContains hy).1 ((hWay k hk).2 hLt)
  · intro hWay k hk
    refine ⟨fun hLt => probe_before hLt hx hContains, fun hLt => ?_⟩
    have hIn := (mem_way hk).2
    obtain ⟨y, hy⟩ : ∃ y, table.ranges[k]? = some y := ⟨_, List.getElem?_eq_getElem hIn⟩
    exact (probe_behind hLt hx hContains hy).2 (hWay k hk hLt y hy)

end

/-- The range that contains the address is selected, none where there is none, and the assertion of
`read_frame_fde` holds of what is selected. -/
structure SelectsRight (table : FrameTable) (sec : Nat) (ip : Word) : Prop where
  found  : ∀ i x, table.ranges[i]? = some x → x.Contains sec ip →
    select table.ranges sec ip = some i
  none   : (∀ x ∈ table.ranges, ¬ x.Contains sec ip) → select table.ranges sec ip = none
  assert : ∀ i x, select table.ranges sec ip = some i → table.ranges[i]? = some x →
    FdeAssertion x ip

/-- The search is right exactly when the range that contains the address does not end at the top of
the address space and no empty range hides it: one that begins in it, not behind the address, and
that the search looks at before it. -/
theorem selects_containing (table : FrameTable) (sec : Nat) (ip : Word) :
    SelectsRight table sec ip ↔ ∀ i x, table.ranges[i]? = some x → x.Contains sec ip →
      x.addr.toNat + x.size.toNat < 2 ^ 64 ∧
      ∀ k ∈ way i table.ranges.length 0 table.ranges.length, i < k →
        ∀ y, table.ranges[k]? = some y → y.sectionIndex = sec → y.size = 0 → ip < y.addr := by
  constructor
  · intro h i x hx hContains
    have hFound := h.found i x hx hContains
    exact ⟨(fdeAssertion_iff (inSpace_at hx) hContains).1 (h.assert i x hFound hx),
      (select_containing hx hContains).1 hFound⟩
  · intro h
    refine ⟨fun i x hx hContains =>
      (select_containing hx hContains).2 (h i x hx hContains).2, ?_, ?_⟩
    · intro hNone
      cases hSelect : select table.ranges sec ip with
      | none => rfl
      | some i =>
        obtain ⟨x, hx, hContains⟩ := select_sound hSelect
        exact absurd hContains (hNone x (List.mem_of_getElem? hx))
    · intro i x hSelect hx
      obtain ⟨x', hx', hContains⟩ := select_sound hSelect
      cases hx.symm.trans hx'
      exact (fdeAssertion_iff (inSpace_at hx) hContains).2 (h i x hx hContains).1

/-- A range that ends at the top of the address space. -/
def topTable : FrameTable where
  ranges := [⟨0, 0xfffffffffffffff0, 0x10, 0⟩]
  sorted := by decide
  inSpace := by decide
  disjoint := List.pairwise_singleton _ _

/-- A range and an empty one that begins in it. -/
def hiddenTable : FrameTable where
  ranges := [⟨0, 0x100, 0x10, 0⟩, ⟨0, 0x108, 0, 0x20⟩]
  sorted := by decide
  inSpace := by decide
  disjoint := by
    refine List.pairwise_pair.2 ?_
    rintro sec ip ⟨-, -, hLow, hHigh⟩
    have hLow : 0x108 ≤ ip.toNat := hLow
    have hHigh : ip.toNat < 0x108 + 0 := hHigh
    omega

/-- The assertion fails for the range at the top, and the range in which the empty one begins is
not found. -/
theorem selects_wrong :
    (select topTable.ranges 0 0xfffffffffffffff8 = some 0 ∧
      ¬ SelectsRight topTable 0 0xfffffffffffffff8) ∧
    select hiddenTable.ranges 0 0x10c = none ∧ ¬ SelectsRight hiddenTable 0 0x10c := by
  have hTop : select topTable.ranges 0 0xfffffffffffffff8 = some 0 := by decide
  have hHidden : select hiddenTable.ranges 0 0x10c = none := by decide
  refine ⟨⟨hTop, fun h => ?_⟩, hHidden, fun h => ?_⟩
  · have hAssert := h.assert 0 _ hTop rfl
    revert hAssert
    decide
  · have hFound := h.found 0 _ rfl (by decide)
    rw [hHidden] at hFound
    cases hFound

end TcfAgent.FrameSearch

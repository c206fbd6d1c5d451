import Mathlib.Data.List.Nodup

/-!
# Lists of rows with a key

A component keeps its objects in a list, and each of them has a key, such as its address.
`replace` writes one object back; the keys stay as they are. Where the keys are distinct, an
object is found by its key (`find_key`), and two objects with one key are the same.
-/

namespace TcfAgent.Lib

variable {α κ : Type*} [DecidableEq κ] {key : α → κ} {l : List α} {a b x : α}

/-- The row with the key of `b` becomes `b`. -/
def replace (key : α → κ) (b : α) (l : List α) : List α :=
  l.map fun x => if key x = key b then b else x

theorem map_replace (key : α → κ) (b : α) (l : List α) :
    (replace key b l).map key = l.map key := by
  rw [replace, List.map_map]
  refine List.map_congr_left fun x _ => ?_
  rw [Function.comp_apply]
  split
  · rename_i h
    exact h.symm
  · rfl

theorem mem_replace (h : x ∈ replace key b l) : x = b ∨ x ∈ l ∧ key x ≠ key b := by
  obtain ⟨y, hy, rfl⟩ := List.mem_map.1 h
  split
  · exact .inl rfl
  · rename_i hNe
    exact .inr ⟨hy, hNe⟩

theorem mem_replace_self (ha : a ∈ l) (hKey : key b = key a) : b ∈ replace key b l :=
  List.mem_map.2 ⟨a, ha, if_pos hKey.symm⟩

theorem mem_replace_of_ne (hx : x ∈ l) (hNe : key x ≠ key b) : x ∈ replace key b l :=
  List.mem_map.2 ⟨x, hx, if_neg hNe⟩

omit [DecidableEq κ] in
theorem eq_of_key (hNodup : (l.map key).Nodup) (ha : a ∈ l) (hb : b ∈ l) (hKey : key a = key b) :
    a = b :=
  List.inj_on_of_nodup_map hNodup ha hb hKey

theorem find_key (hNodup : (l.map key).Nodup) (ha : a ∈ l) :
    l.find? (fun x => key x = key a) = some a := by
  obtain ⟨b, hFind⟩ : ∃ b, l.find? (fun x => key x = key a) = some b := by
    rw [← Option.isSome_iff_exists, List.find?_isSome]
    exact ⟨a, ha, by simp⟩
  have hKey : key b = key a := by simpa using List.find?_some hFind
  rw [hFind, eq_of_key hNodup (List.mem_of_find?_eq_some hFind) ha hKey]

end TcfAgent.Lib

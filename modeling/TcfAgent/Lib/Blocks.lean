import Mathlib.Data.List.Perm.Basic
import Mathlib.Data.List.Nodup
import Mathlib.Tactic

/-!
# Blocks and their owners

Blocks of memory that are allocated and freed. `Held b owners` says that the owners have the blocks
that are live, each of them one. Freeing takes a block from its owner, and what the others have
stays as it is.

Main results:

* `Held.alloc` — a new block has a new owner;
* `Held.free`  — a block that is owned can be freed.
-/

namespace TcfAgent.Lib

/-- The addresses of the live blocks, and the next one. -/
structure Blocks where
  next : Nat
  live : List Nat
deriving DecidableEq, Repr

namespace Blocks

def empty : Blocks := ⟨0, []⟩

def alloc (b : Blocks) : Blocks := ⟨b.next + 1, b.next :: b.live⟩

/-- Only a live block can be freed. -/
def free (b : Blocks) (a : Nat) : Option Blocks :=
  if a ∈ b.live then some { b with live := b.live.erase a } else none

/-- Every live block has one owner, and what an owner has is live. -/
structure Held (b : Blocks) (owners : List Nat) : Prop where
  perm  : b.live.Perm owners
  nodup : b.live.Nodup
  below : ∀ a ∈ b.live, a < b.next

variable {b : Blocks} {owners owners' : List Nat} {a : Nat}

theorem held_empty : Held empty [] :=
    ⟨List.Perm.refl _, List.nodup_nil, fun _ ha => absurd ha List.not_mem_nil⟩

theorem Held.congr (h : Held b owners) (hPerm : owners.Perm owners') : Held b owners' :=
  ⟨h.perm.trans hPerm, h.nodup, h.below⟩

theorem Held.owners_nodup (h : Held b owners) : owners.Nodup := h.perm.nodup_iff.1 h.nodup

theorem Held.mem_iff (h : Held b owners) : a ∈ owners ↔ a ∈ b.live := h.perm.mem_iff.symm

theorem Held.alloc (h : Held b owners) : Held b.alloc (b.next :: owners) := by
  refine ⟨h.perm.cons _, ?_, ?_⟩
  · refine List.nodup_cons.2 ⟨fun hMem => ?_, h.nodup⟩
    exact absurd (h.below _ hMem) (Nat.lt_irrefl _)
  · intro a ha
    rcases List.mem_cons.1 ha with rfl | ha
    · exact Nat.lt_succ_self _
    · exact Nat.lt_succ_of_lt (h.below a ha)

theorem Held.free (h : Held b (a :: owners)) : ∃ b', b.free a = some b' ∧ Held b' owners := by
  have hLive : a ∈ b.live := h.mem_iff.1 List.mem_cons_self
  refine ⟨{ b with live := b.live.erase a }, if_pos hLive, ?_, h.nodup.erase a, ?_⟩
  · have hErase := h.perm.erase a
    rwa [List.erase_cons_head] at hErase
  · exact fun a' ha' => h.below a' (List.mem_of_mem_erase ha')

end Blocks

end TcfAgent.Lib

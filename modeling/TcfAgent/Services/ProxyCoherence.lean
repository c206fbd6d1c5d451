import Mathlib.Data.List.Flatten
import Mathlib.Data.List.TakeWhile
import TcfAgent.Services.ProxyMemory

/-!
# Coherence of the memory cache of a context proxy

The loops that free blocks look at the first block of a list in every round, so they stop freeing
at the first block that they keep. No block outlives a change of its memory as long as the blocks
that a change hits stand before the others.

Main results:

* `freeLoop_eq`        — what the loops leave begins at the first block that is kept;
* `cleared_iff`        — no block that is hit is left exactly when none stands behind a kept one;
* `Coherent.step`      — what every action keeps;
* `reads_are_coherent` — reads take fresh blocks, and report the errors that cover them.
-/

namespace TcfAgent.ProxyMemory

open TcfAgent.Lib

variable {E : Type}

/-! ## The loops -/

/-- No filled block that is hit stands behind a block that is kept. -/
def NoneBehind (free : MemoryCache E → Bool) (hit : MemoryCache E → Prop)
    (ms : List (MemoryCache E)) : Prop :=
  ∀ before m after, ms = before ++ m :: after → m.pending = false → hit m →
    ∀ x ∈ before, free x = true

variable {free : MemoryCache E → Bool} {m : MemoryCache E}

theorem freeLoop_kept (h : free m = false)
    (n : Nat) (ms : List (MemoryCache E)) : freeLoop free n (m :: ms) = m :: ms := by
  induction n with
  | zero => rfl
  | succ n ih => simp only [freeLoop, h, Bool.false_eq_true, ↓reduceIte, ih]

/-- Once a block is kept, the loop frees nothing more. -/
theorem freeLoop_eq (free : MemoryCache E → Bool) (ms : List (MemoryCache E)) :
    freeLoop free ms.length ms = ms.dropWhile free := by
  induction ms with
  | nil => rfl
  | cons m ms ih =>
    by_cases hFree : free m = true
    · simp only [List.length_cons, freeLoop, hFree, ↓reduceIte, ih, List.dropWhile_cons]
    · rw [Bool.not_eq_true] at hFree
      rw [freeLoop_kept hFree]
      simp [hFree]

theorem freeLoop_sublist (free : MemoryCache E → Bool) (ms : List (MemoryCache E)) :
    (freeLoop free ms.length ms).Sublist ms := by
  rw [freeLoop_eq]
  exact List.dropWhile_sublist free

variable {hit : MemoryCache E → Prop}

theorem cleared_iff {ms : List (MemoryCache E)}
    (hFree : ∀ m, m.pending = false → hit m → free m = true) :
    (∀ m ∈ freeLoop free ms.length ms, m.pending = false → ¬ hit m) ↔
      NoneBehind free hit ms := by
  rw [freeLoop_eq]
  constructor
  · intro hClear before m after hSplit hFilled hHit x hx
    by_contra hKept
    have hMem : m ∈ ms.dropWhile free := by
      rw [hSplit, List.dropWhile_append]
      have hNe : (before.dropWhile free).isEmpty = false := by
        rw [List.isEmpty_eq_false_iff]
        intro hNil
        exact hKept (List.dropWhile_eq_nil_iff.1 hNil x hx)
      simp [hNe]
    exact hClear m hMem hFilled hHit
  · intro hNone m hm hFilled hHit
    obtain ⟨before, after, hSplit⟩ := List.append_of_mem hm
    have hWhole : ms = (ms.takeWhile free ++ before) ++ m :: after := by
      rw [List.append_assoc, ← hSplit, List.takeWhile_append_dropWhile]
    have hBefore := hNone _ m after hWhole hFilled hHit
    cases before with
    | nil =>
      have hHead := List.head?_dropWhile_not free ms
      rw [hSplit] at hHead
      have hm' := hFree m hFilled hHit
      simp [hm'] at hHead
    | cons y ys =>
      have hHead := List.head?_dropWhile_not free ms
      rw [hSplit] at hHead
      have hy := hBefore y (by simp)
      simp [hy] at hHead

theorem keptBy_not_hit {addr size : UInt64} (h : m.keptBy addr size = true)
    {x : Nat} (hBlock : m.addr.toNat ≤ x ∧ x < m.addr.toNat + m.size.toNat)
    (hRange : addr.toNat ≤ x ∧ x < addr.toNat + size.toNat) : False := by
  have hSize := m.size.toNat_lt
  have hAddr' := addr.toNat_lt
  have hSize' := size.toNat_lt
  simp only [MemoryCache.keptBy, Bool.or_eq_true, Bool.and_eq_true, decide_eq_true_eq,
    UInt64.le_iff_toNat_le, UInt64.lt_iff_toNat_lt, UInt64.toNat_add] at h
  omega

/-! ## States with fewer blocks -/

/-- The contexts have distinct addresses. -/
structure State.Keyed (s : State E) : Prop where
  nodup : (s.contextRoot.map ContextCache.key).Nodup
  bound : ∀ c ∈ s.contextRoot, c.key < s.nextKey

variable {f : ContextCache E → ContextCache E}

theorem State.Keyed.map {s : State E} (h : s.Keyed)
    (hKey : ∀ x, (f x).key = x.key) {disposed : List (MemoryCache E)} {rcDone closed : Bool}
    {nextSerial : Nat} :
    State.Keyed ⟨s.contextRoot.map f, disposed, rcDone, closed, s.nextKey, nextSerial⟩ := by
  have hKeys : (s.contextRoot.map f).map ContextCache.key =
      s.contextRoot.map ContextCache.key := by
    rw [List.map_map]
    exact List.map_congr_left fun x _ => hKey x
  refine ⟨hKeys ▸ h.nodup, fun y hy => ?_⟩
  obtain ⟨x, hx, rfl⟩ := List.mem_map.1 hy
  exact (hKey x).symm ▸ h.bound x hx

/-- No block is new, and none has moved to another context. -/
structure Shrinks (s t : State E) : Prop where
  lists    : ∀ y ∈ t.contextRoot, y.memCacheList = [] ∨
    ∃ x ∈ s.contextRoot, x.key = y.key ∧ ∀ m ∈ y.memCacheList, m ∈ x.memCacheList
  blocks   : t.blocks.Sublist s.blocks
  disposed : ∀ m ∈ t.disposed, m ∈ s.blocks ++ s.disposed
  serial   : t.nextSerial = s.nextSerial
  keyed    : s.Keyed → t.Keyed
  done     : t.rcDone = false → s.rcDone = false

theorem Shrinks.refl (s : State E) : Shrinks s s where
  lists y hy := .inr ⟨y, hy, rfl, fun _ hm => hm⟩
  blocks := List.Sublist.refl _
  disposed _ hm := List.mem_append_right _ hm
  serial := rfl
  keyed h := h
  done h := h

theorem Shrinks.trans {s t u : State E} (hst : Shrinks s t) (htu : Shrinks t u) : Shrinks s u where
  lists z hz := by
    rcases htu.lists z hz with hNil | ⟨y, hy, hKey, hSub⟩
    · exact .inl hNil
    · rcases hst.lists y hy with hNil | ⟨x, hx, hKey', hSub'⟩
      · refine .inl (List.eq_nil_iff_forall_not_mem.2 fun m hm => ?_)
        have hIn := hSub m hm
        simp [hNil] at hIn
      · exact .inr ⟨x, hx, hKey'.trans hKey, fun m hm => hSub' m (hSub m hm)⟩
  blocks := htu.blocks.trans hst.blocks
  disposed m hm := by
    rcases List.mem_append.1 (htu.disposed m hm) with hIn | hIn
    · exact List.mem_append_left _ (hst.blocks.subset hIn)
    · exact hst.disposed m hIn
  serial := htu.serial.trans hst.serial
  keyed h := htu.keyed (hst.keyed h)
  done h := hst.done (htu.done h)

section

variable {s : State E}

/-- Contexts that change, and keep their addresses and some of their blocks. -/
theorem shrinks_map {disposed : List (MemoryCache E)}
    {rcDone closed : Bool} (hKey : ∀ x, (f x).key = x.key)
    (hBlocks : ∀ x, (f x).memCacheList.Sublist x.memCacheList)
    (hDisposed : ∀ m ∈ disposed, m ∈ s.blocks ++ s.disposed)
    (hDone : rcDone = false → s.rcDone = false) :
    Shrinks s { s with
      contextRoot := s.contextRoot.map f
      disposed := disposed
      rcDone := rcDone
      closed := closed } where
  lists y hy := by
    obtain ⟨x, hx, rfl⟩ := List.mem_map.1 hy
    exact .inr ⟨x, hx, (hKey x).symm, fun m hm => (hBlocks x).subset hm⟩
  blocks := by
    simp only [State.blocks, List.flatMap_map]
    exact List.Sublist.flatMap_right _ fun x _ => hBlocks x
  disposed := hDisposed
  serial := rfl
  keyed h := h.map hKey
  done := hDone

theorem modify_shrinks (key : Nat)
    (hKey : ∀ x, (f x).key = x.key) (hBlocks : ∀ x, (f x).memCacheList = x.memCacheList) :
    Shrinks s (s.modify key f) := by
  refine shrinks_map (fun x => ?_) (fun x => ?_) (fun m hm => List.mem_append_right _ hm) id
  · split
    · exact hKey x
    · rfl
  · split
    · rw [hBlocks]
    · exact List.Sublist.refl _

theorem mem_blocks {x : ContextCache E} (hx : x ∈ s.contextRoot)
    (hm : m ∈ x.memCacheList) : m ∈ s.blocks := List.mem_flatMap.2 ⟨x, hx, hm⟩

theorem freeShared_shrinks (c : ContextCache E) (free : MemoryCache E → Bool) :
    Shrinks s (s.freeShared c free) := by
  refine shrinks_map (fun x => ?_) (fun x => ?_) (fun m hm => ?_) id
  · split <;> rfl
  · split
    · exact freeLoop_sublist free _
    · exact List.Sublist.refl _
  · rcases List.mem_append.1 hm with hOld | hNew
    · exact List.mem_append_right _ hOld
    · obtain ⟨x, hx, hIn⟩ := List.mem_flatMap.1 hNew
      exact List.mem_append_left _
        (mem_blocks (List.mem_of_mem_filter hx) (List.mem_of_mem_filter hIn))

theorem clearContextCache_shrinks (c : ContextCache E) : Shrinks s (s.clearContextCache c) := by
  unfold State.clearContextCache
  split
  · exact freeShared_shrinks c _
  · exact Shrinks.refl s

theorem setContextLinks_keeps (c : ContextCache E) :
    (s.setContextLinks c).key = c.key ∧ (s.setContextLinks c).memCacheList = c.memCacheList := by
  unfold State.setContextLinks
  split
  · exact ⟨rfl, rfl⟩
  · split <;> exact ⟨rfl, rfl⟩

/-- A new context has no blocks. -/
theorem shrinks_cons {c : ContextCache E} (hKey : c.key = s.nextKey) (hNil : c.memCacheList = []) :
    Shrinks s { s with contextRoot := c :: s.contextRoot, nextKey := s.nextKey + 1 } where
  lists y hy := by
    rcases List.mem_cons.1 hy with rfl | hOld
    · exact .inl hNil
    · exact .inr ⟨y, hOld, rfl, fun _ hm => hm⟩
  blocks := by
    simp only [State.blocks, List.flatMap_cons, hNil, List.nil_append]
    exact List.Sublist.refl _
  disposed m hm := List.mem_append_right _ hm
  serial := rfl
  keyed h := by
    refine ⟨List.nodup_cons.2 ⟨fun hIn => ?_, h.nodup⟩, fun y hy => ?_⟩
    · obtain ⟨x, hx, hEq⟩ := List.mem_map.1 hIn
      have hLt := h.bound x hx
      omega
    · rcases List.mem_cons.1 hy with rfl | hOld
      · exact hKey ▸ Nat.lt_succ_self _
      · exact Nat.lt_succ_of_lt (h.bound y hOld)
  done h := h

theorem contextAdded_shrinks (id parentId processId : String) (intercepted : Bool) :
    Shrinks s (s.contextAdded id parentId processId intercepted) := by
  unfold State.contextAdded
  split
  · split
    · exact shrinks_cons (setContextLinks_keeps _).1 (setContextLinks_keeps _).2
    · exact shrinks_cons rfl rfl
  · exact Shrinks.refl s

theorem filter_shrinks (p : ContextCache E → Bool) :
    Shrinks s { s with contextRoot := s.contextRoot.filter p } where
  lists y hy := .inr ⟨y, List.mem_of_mem_filter hy, rfl, fun _ hm => hm⟩
  blocks := List.filter_sublist.flatMap _
  disposed _ hm := List.mem_append_right _ hm
  serial := rfl
  keyed h := ⟨h.nodup.sublist (List.filter_sublist.map _),
    fun c hc => h.bound c (List.mem_of_mem_filter hc)⟩
  done h := h

/-- What the loop leaves of the blocks of the contexts that share a memory. -/
theorem freeShared_clears {c : ContextCache E}
    (hKeyed : s.Keyed)
    (hFree : ∀ m, m.pending = false → hit m → free m = true)
    (hNone : ∀ x ∈ s.contextRoot, x.mem = c.mem → NoneBehind free hit x.memCacheList) :
    ∀ y ∈ (s.freeShared c free).contextRoot, y.key ∈ s.sharers c →
      ∀ m ∈ y.memCacheList, m.pending = false → ¬ hit m := by
  intro y hy hSharer
  obtain ⟨x, hx, rfl⟩ := List.mem_map.1 hy
  obtain ⟨z, hz, hKey⟩ := List.mem_map.1 hSharer
  rw [List.mem_filter, decide_eq_true_eq] at hz
  have hxKey : z.key = x.key := by
    rw [hKey]
    split <;> rfl
  obtain rfl := List.inj_on_of_nodup_map hKeyed.nodup hz.1 hx hxKey
  simp only [hz.2, ↓reduceIte]
  exact (cleared_iff hFree).2 (hNone z hz.1 hz.2)

end

/-! ## The invariant -/

/-- No block that can be read is older than a change that it overlaps. -/
structure Coherent (w : Watched E) : Prop where
  fresh   : ∀ c ∈ w.state.contextRoot, ∀ m ∈ c.memCacheList, m.pending = false → w.Fresh c.key m
  times   : ∀ ch ∈ w.changes, ch.time < w.clock
  serials : (w.state.blocks.map MemoryCache.serial).Nodup
  bound   : ∀ m ∈ w.state.blocks, m.serial < w.state.nextSerial
  clean   : ∀ m ∈ w.state.blocks ++ w.state.disposed, m.pending = true →
    m.error = none ∧ m.errorsAddress = []
  keyed   : w.state.Keyed
  early   : w.state.rcDone = false → w.state.blocks = []

theorem coherent_init : Coherent (Watched.init : Watched E) where
  fresh c hc := by cases hc
  times ch hCh := by cases hCh
  serials := List.nodup_nil
  bound m hm := by cases hm
  clean m hm := by cases hm
  keyed := ⟨List.nodup_nil, fun c hc => by cases hc⟩
  early _ := rfl

section

variable {w : Watched E}

/-- Fewer blocks, and changes that hit none of them. -/
theorem Coherent.shrink (h : Coherent w) {t : State E} (ht : Shrinks w.state t)
    {changes : List Change} (hTimes : ∀ ch ∈ changes, ch.time = w.clock)
    (hNew : ∀ ch ∈ changes, ∀ y ∈ t.contextRoot, y.key ∈ ch.sharers →
      ∀ m ∈ y.memCacheList, m.pending = false → ¬ ch.Hits m) :
    Coherent
      { state := t
        clock := w.clock + 1
        fetched := w.fetched
        changes := changes ++ w.changes } where
  fresh y hy m hm hFilled ch hCh hSharer hHits := by
    rcases List.mem_append.1 hCh with hIn | hOld
    · exact absurd hHits (hNew ch hIn y hy hSharer m hm hFilled)
    · rcases ht.lists y hy with hNil | ⟨x, hx, hKey, hSub⟩
      · simp [hNil] at hm
      · exact h.fresh x hx m (hSub m hm) hFilled ch hOld (hKey ▸ hSharer) hHits
  times ch hCh := by
    rcases List.mem_append.1 hCh with hIn | hOld
    · have hEq := hTimes ch hIn
      dsimp only
      omega
    · exact Nat.lt_succ_of_lt (h.times ch hOld)
  serials := h.serials.sublist (ht.blocks.map _)
  bound m hm := ht.serial ▸ h.bound m (ht.blocks.subset hm)
  clean m hm := by
    refine h.clean m ?_
    rcases List.mem_append.1 hm with hIn | hIn
    · exact List.mem_append_left _ (ht.blocks.subset hIn)
    · exact ht.disposed m hIn
  keyed := ht.keyed h.keyed
  early hDone := by
    have hNil := h.early (ht.done hDone)
    exact List.sublist_nil.1 (hNil ▸ ht.blocks)

/-- Fewer blocks, and no change. -/
theorem Coherent.quiet (h : Coherent w) {t : State E} (ht : Shrinks w.state t) :
    Coherent
      { state := t
        clock := w.clock + 1
        fetched := w.fetched
        changes := w.changes } := by
  have hNone (ch : Change) (hCh : ch ∈ []) : False := by cases hCh
  exact h.shrink ht (fun ch hCh => (hNone ch hCh).elim) fun ch hCh => (hNone ch hCh).elim

/-- `validate_memory_cache` on a block that may be another one. -/
def MemoryCache.replied (serial : Nat) (r : Reply E) (m : MemoryCache E) : MemoryCache E :=
  if m.serial = serial && m.pending then m.validate r else m

theorem replied_serial (serial : Nat) (r : Reply E) (m : MemoryCache E) :
    (m.replied serial r).serial = m.serial := by
  unfold MemoryCache.replied
  split <;> rfl

theorem replied_pending {serial : Nat} {r : Reply E}
    (h : (m.replied serial r).pending = true) : m.replied serial r = m := by
  unfold MemoryCache.replied at h ⊢
  split
  · rename_i hThis
    rw [if_pos hThis] at h
    cases h
  · rfl

/-- The state after a reply. -/
def State.replied (s : State E) (serial : Nat) (r : Reply E) : State E :=
  { s with
    contextRoot := s.contextRoot.map fun c =>
      { c with memCacheList := c.memCacheList.map (MemoryCache.replied serial r) }
    disposed := s.disposed.filter fun m => m.serial ≠ serial }

theorem replied_blocks (s : State E) (serial : Nat) (r : Reply E) :
    (s.replied serial r).blocks = s.blocks.map (MemoryCache.replied serial r) := by
  simp only [State.replied, State.blocks, List.flatMap_map, List.map_flatMap]

/-- No assertion of `validate_memory_cache` fails. -/
theorem Coherent.validate_eq (h : Coherent w) (serial : Nat) (r : Reply E) :
    w.state.validateMemoryCache serial r = some (w.state.replied serial r) := by
  unfold State.validateMemoryCache
  rw [if_neg]
  · rfl
  · intro hAny
    obtain ⟨m, hm, hFails⟩ := List.any_eq_true.1 hAny
    simp only [Bool.and_eq_true] at hFails
    obtain ⟨hError, hRanges⟩ := h.clean m hm hFails.1.2
    simp [hError, hRanges] at hFails

/-- A reply fills its block, which is fresh then. -/
theorem Coherent.validate (h : Coherent w) (serial : Nat) (r : Reply E) :
    Coherent
      { state := w.state.replied serial r
        clock := w.clock + 1
        fetched := w.newFetched (.validateMemoryCache serial r)
        changes := w.changes } where
  fresh y hy m hm hFilled ch hCh hSharer hHits := by
    obtain ⟨x, hx, rfl⟩ := List.mem_map.1 hy
    obtain ⟨n, hn, rfl⟩ := List.mem_map.1 hm
    rw [replied_serial]
    show ch.time < if n.serial = serial ∧ _ then w.clock else w.fetched n.serial
    split
    · exact h.times ch hCh
    · rename_i hOther
      have hThis : ¬ (n.serial = serial ∧ n.pending = true) :=
        fun hn' => hOther ⟨hn'.1, n, mem_blocks hx hn, hn'⟩
      have hSame : n.replied serial r = n := by
        unfold MemoryCache.replied
        rw [if_neg]
        simpa using hThis
      rw [hSame] at hFilled hHits
      exact h.fresh x hx n hn hFilled ch hCh hSharer hHits
  times ch hCh := Nat.lt_succ_of_lt (h.times ch hCh)
  serials := by
    have hSerials : (w.state.replied serial r).blocks.map MemoryCache.serial =
        w.state.blocks.map MemoryCache.serial := by
      rw [replied_blocks, List.map_map]
      exact List.map_congr_left fun m _ => replied_serial serial r m
    exact hSerials ▸ h.serials
  bound m hm := by
    rw [replied_blocks] at hm
    obtain ⟨n, hn, rfl⟩ := List.mem_map.1 hm
    rw [replied_serial]
    exact h.bound n hn
  clean m hm hPending := by
    rcases List.mem_append.1 hm with hIn | hIn
    · rw [replied_blocks] at hIn
      obtain ⟨n, hn, rfl⟩ := List.mem_map.1 hIn
      have hSame := replied_pending hPending
      rw [hSame] at hPending ⊢
      exact h.clean n (List.mem_append_left _ hn) hPending
    · exact h.clean m (List.mem_append_right _ (List.mem_of_mem_filter hIn)) hPending
  keyed := h.keyed.map
    (f := fun c => { c with memCacheList := c.memCacheList.map (MemoryCache.replied serial r) })
    fun _ => rfl
  early hDone := by
    rw [replied_blocks, h.early hDone]
    rfl

theorem blocks_cons {key : Nat} {cs : List (ContextCache E)} (b : MemoryCache E)
    (hNodup : (cs.map ContextCache.key).Nodup) (hIn : ∃ c ∈ cs, c.key = key) :
    ((cs.map fun x => if x.key = key then { x with memCacheList := b :: x.memCacheList }
      else x).flatMap ContextCache.memCacheList).Perm
        (b :: cs.flatMap ContextCache.memCacheList) := by
  induction cs with
  | nil =>
    obtain ⟨c, hc, -⟩ := hIn
    cases hc
  | cons x xs ih =>
    rw [List.map_cons, List.nodup_cons] at hNodup
    by_cases hKey : x.key = key
    · have hRest : (xs.map fun x => if x.key = key then
          { x with memCacheList := b :: x.memCacheList } else x) = xs := by
        conv_rhs => rw [← List.map_id xs]
        refine List.map_congr_left fun y hy => if_neg fun hy' => hNodup.1 ?_
        exact List.mem_map.2 ⟨y, hy, hy'.trans hKey.symm⟩
      rw [List.map_cons, hRest]
      simp [hKey]
    · have hIn' : ∃ c ∈ xs, c.key = key := by
        obtain ⟨c, hc, hcKey⟩ := hIn
        rcases List.mem_cons.1 hc with rfl | hc
        · exact absurd hcKey hKey
        · exact ⟨c, hc, hcKey⟩
      simp only [List.map_cons, hKey, ↓reduceIte, List.flatMap_cons]
      exact ((ih hNodup.2 hIn').append_left _).trans List.perm_middle

/-- A new block is pending. -/
theorem Coherent.read (h : Coherent w) (key : Nat) (address size : UInt64) :
    Coherent
      { state := w.state.contextReadMem key address size
        clock := w.clock + 1
        fetched := w.fetched
        changes := w.changes } := by
  have hSame : Coherent
      { state := w.state
        clock := w.clock + 1
        fetched := w.fetched
        changes := w.changes } := h.quiet (Shrinks.refl _)
  unfold State.contextReadMem
  split
  · exact hSame
  rename_i hOpen
  split
  · exact hSame
  rename_i c hc
  split
  · exact hSame
  have hDone : w.state.rcDone = true := by
    simp only [Bool.or_eq_true, Bool.not_eq_true', not_or, Bool.not_eq_false] at hOpen
    exact hOpen.2
  have hIn : ∃ x ∈ w.state.contextRoot, x.key = key :=
    ⟨c, List.mem_of_find?_eq_some hc, by simpa using List.find?_some hc⟩
  have hPerm := blocks_cons (newBlock w.state.nextSerial address size) h.keyed.nodup hIn
  have hNew (m : MemoryCache E) (hm : m ∈ (w.state.modify key fun x => { x with
      memCacheList := newBlock w.state.nextSerial address size :: x.memCacheList }).blocks) :
      m = newBlock w.state.nextSerial address size ∨ m ∈ w.state.blocks :=
    List.mem_cons.1 (hPerm.mem_iff.1 hm)
  refine ⟨fun y hy m hm hFilled => ?_, fun ch hCh => Nat.lt_succ_of_lt (h.times ch hCh), ?_,
    fun m hm => ?_, fun m hm hPending => ?_, ?_, fun hFalse => ?_⟩
  · obtain ⟨x, hx, rfl⟩ := List.mem_map.1 hy
    split at hm
    · rename_i hKey
      simp only [hKey, ↓reduceIte]
      rcases List.mem_cons.1 hm with rfl | hOld
      · cases hFilled
      · exact hKey ▸ h.fresh x hx m hOld hFilled
    · rename_i hKey
      simp only [hKey, ↓reduceIte]
      exact h.fresh x hx m hm hFilled
  · refine (hPerm.map MemoryCache.serial).nodup_iff.2
      (List.nodup_cons.2 ⟨fun hOld => ?_, h.serials⟩)
    obtain ⟨m, hm, hEq⟩ := List.mem_map.1 hOld
    have hLt := h.bound m hm
    simp only [newBlock] at hEq
    omega
  · rcases hNew m hm with rfl | hOld
    · exact Nat.lt_succ_self _
    · exact Nat.lt_succ_of_lt (h.bound m hOld)
  · rcases List.mem_append.1 hm with hIn | hIn
    · rcases hNew m hIn with rfl | hOld
      · exact ⟨rfl, rfl⟩
      · exact h.clean m (List.mem_append_left _ hOld) hPending
    · exact h.clean m (List.mem_append_right _ hIn) hPending
  · exact h.keyed.map fun x => by split <;> rfl
  · cases hDone.symm.trans hFalse

end

/-! ## Runs -/

/-- Blocks that a change hits stand before those that it does not; nothing is suspended twice; and a
read does not pass the test of a block or of a valid range because a sum wraps, and finds `errno`
clear when it takes valid bytes of a block with an error. -/
def Intended (s : State E) : Action E → Prop
  | .memoryChanged id addr size => ∀ c, s.find id = some c → ∀ x ∈ s.contextRoot, x.mem = c.mem →
    NoneBehind (fun m => !m.keptBy addr size) (Change.mk 0 [] (some (addr, size))).Hits
      x.memCacheList
  | .suspended id => ∀ c, s.find id = some c → ∀ x ∈ s.contextRoot, x.mem = c.mem →
    if c.intercepted then ∀ m ∈ x.memCacheList, m.pending = true
    else NoneBehind (fun m => !m.pending) (fun _ => True) x.memCacheList
  | .contextReadMem key address size errno => ∀ c m, s.context key = some c →
    c.block address size = some m → m.pending = false →
      m.Inside address size ∧ (m.error.isSome → m.valid address size = true →
        errno = none ∧ ∃ e ∈ m.errorsAddress, e.Contains address size)
  | _ => True

theorem modify_sharers {s : State E} {key : Nat}
    (hKey : ∀ x, (f x).key = x.key) (hMem : ∀ x, (f x).mem = x.mem) (c : ContextCache E) :
    (s.modify key f).sharers c = s.sharers c := by
  have hKeys (x : ContextCache E) : (if x.key = key then f x else x).key = x.key := by
    split
    · exact hKey x
    · rfl
  have hMems (x : ContextCache E) : (if x.key = key then f x else x).mem = x.mem := by
    split
    · exact hMem x
    · rfl
  simp only [State.sharers, State.modify, List.filter_map, List.map_map]
  refine (List.map_congr_left fun x _ => hKeys x).trans ?_
  refine congrArg (List.map ContextCache.key) (List.filter_congr fun x _ => ?_)
  simp only [Function.comp_apply, hMems]

variable {w : Watched E}

/-- The blocks that a change leaves are not hit by it. -/
theorem Coherent.change (h : Coherent w) {c : ContextCache E} {t : State E}
    {range : Option (UInt64 × UInt64)} (ht : Shrinks w.state t)
    (hClear : w.state.rcDone = true → ∀ y ∈ t.contextRoot, y.key ∈ w.state.sharers c →
      ∀ m ∈ y.memCacheList, m.pending = false →
        ¬ (Change.mk w.clock (w.state.sharers c) range).Hits m) :
    Coherent
      { state := t
        clock := w.clock + 1
        fetched := w.fetched
        changes := [Change.mk w.clock (w.state.sharers c) range] ++ w.changes } := by
  refine h.shrink ht (fun ch hCh => ?_) fun ch hCh y hy hSharer m hm hFilled => ?_
  · rw [List.mem_singleton.1 hCh]
  · obtain rfl := List.mem_singleton.1 hCh
    cases hDone : w.state.rcDone with
    | true => exact hClear hDone y hy hSharer m hm hFilled
    | false =>
      have hNil := ht.blocks
      rw [h.early hDone] at hNil
      have hIn := hNil.subset (mem_blocks hy hm)
      cases hIn

theorem Coherent.memoryChanged (h : Coherent w) {id : String} {addr size : UInt64}
    (hIntended : Intended w.state (.memoryChanged id addr size)) :
    ∃ v, watch w (.memoryChanged id addr size) = some v ∧ Coherent v := by
  have hSize {m : MemoryCache E} {ch : Change} (hRange : ch.range = some (addr, size))
      (hHits : ch.Hits m) : 0 < size := by
    obtain ⟨x, -, -, hLow, hHigh⟩ := hHits _ hRange
    rw [UInt64.lt_iff_toNat_lt]
    show 0 < size.toNat
    dsimp only at hLow hHigh
    omega
  unfold watch Watched.newChanges Watched.changed
  dsimp only [ProxyMemory.step]
  cases hFind : w.state.find id with
  | none =>
    exact ⟨_, rfl, h.quiet (Shrinks.refl _)⟩
  | some c =>
    dsimp only
    split
    · refine ⟨_, rfl, h.change (freeShared_shrinks c _) fun _ y hy hSharer m hm hFilled hHits => ?_⟩
      refine freeShared_clears h.keyed (fun n _ hHit => ?_) (hIntended c hFind) y hy hSharer m hm
        hFilled hHits
      rw [Bool.not_eq_true']
      by_contra hKept
      obtain ⟨x, hLow, hHigh, hRange⟩ := hHit _ rfl
      exact keptBy_not_hit (by simpa using hKept) ⟨hLow, hHigh⟩ hRange
    · rename_i hSkip
      refine ⟨_, rfl, h.change (Shrinks.refl _) fun hDone y hy hSharer m hm hFilled hHits => ?_⟩
      refine hSkip ?_
      simp [hDone, hSize rfl hHits]

theorem Coherent.suspended (h : Coherent w) {id : String}
    (hIntended : Intended w.state (.suspended id)) :
    ∃ v, watch w (.suspended id) = some v ∧ Coherent v := by
  unfold watch Watched.newChanges Watched.changed
  dsimp only [ProxyMemory.step]
  cases hFind : w.state.find id with
  | none =>
    exact ⟨_, rfl, h.quiet (Shrinks.refl _)⟩
  | some c =>
    dsimp only
    split
    · rename_i hIntercepted
      refine ⟨_, rfl, h.change (Shrinks.refl _) fun hDone y hy hSharer m hm hFilled => ?_⟩
      obtain ⟨x, hx, hKey⟩ := List.mem_map.1 hSharer
      rw [List.mem_filter, decide_eq_true_eq] at hx
      obtain rfl := List.inj_on_of_nodup_map h.keyed.nodup hx.1 hy hKey
      have hPending := hIntended c hFind x hy hx.2
      rw [if_pos hIntercepted] at hPending
      cases hFilled.symm.trans (hPending m hm)
    · rename_i hIntercepted
      have hModify : Shrinks w.state
          (w.state.modify c.key fun x => { x with intercepted := true }) :=
        modify_shrinks c.key (fun _ => rfl) fun _ => rfl
      refine ⟨_, rfl, h.change (hModify.trans (clearContextCache_shrinks c))
        fun hDone y hy hSharer m hm hFilled hHits => ?_⟩
      rw [State.clearContextCache,
        if_pos (show (w.state.modify _ _).rcDone = true from hDone)] at hy
      have hKeep (x : ContextCache E) (hx : x ∈ (w.state.modify c.key fun x =>
          { x with intercepted := true }).contextRoot) (hMem : x.mem = c.mem) :
          NoneBehind (fun m => !m.pending) (fun _ => True) x.memCacheList := by
        obtain ⟨z, hz, rfl⟩ := List.mem_map.1 hx
        have hNone := hIntended c hFind z hz
        rw [if_neg hIntercepted] at hNone
        split at hMem
        · rename_i hKey
          simp only [hKey, ↓reduceIte]
          exact hNone hMem
        · rename_i hKey
          simp only [hKey, ↓reduceIte]
          exact hNone hMem
      refine freeShared_clears (hModify.keyed h.keyed) (fun n hn _ =>
        by simp [hn]) hKeep y hy ?_ m hm
        hFilled trivial
      rw [modify_sharers (f := fun x => { x with intercepted := true }) (fun _ => rfl) fun _ => rfl]
      exact hSharer

theorem Coherent.step (h : Coherent w) {a : Action E}
    (hIntended : Intended w.state a) : ∃ v, watch w a = some v ∧ Coherent v := by
  -- most actions fetch nothing and change no memory: blocks can only be lost
  have hQuiet {t : State E} (hStep : ProxyMemory.step w.state a = some t)
      (ht : Shrinks w.state t) (hFetched : w.newFetched a = w.fetched)
      (hChanges : w.newChanges a = []) : ∃ v, watch w a = some v ∧ Coherent v := by
    refine ⟨_, by rw [watch, hStep]; rfl, ?_⟩
    rw [hFetched, hChanges]
    exact h.quiet ht
  have hFound (id : String) {f : ContextCache E → State E} (hf : ∀ c, Shrinks w.state (f c))
      (hNone : w.state.find id = none → ProxyMemory.step w.state a = some w.state)
      (hSome : ∀ c, w.state.find id = some c → ProxyMemory.step w.state a = some (f c))
      (hFetched : w.newFetched a = w.fetched) (hChanges : w.newChanges a = []) :
      ∃ v, watch w a = some v ∧ Coherent v := by
    cases hFind : w.state.find id with
    | none => exact hQuiet (hNone hFind) (Shrinks.refl _) hFetched hChanges
    | some c => exact hQuiet (hSome c hFind) (hf c) hFetched hChanges
  cases a with
  | contextAdded id parentId processId intercepted =>
    exact hQuiet rfl (contextAdded_shrinks id parentId processId intercepted) rfl rfl
  | contextChanged id parentId processId =>
    refine hQuiet rfl ?_ rfl rfl
    unfold State.contextChanged
    split
    · exact Shrinks.refl _
    · refine modify_shrinks _ (fun x => ?_) fun x => ?_
      · split
        · exact (setContextLinks_keeps _).1
        · rfl
      · split
        · exact (setContextLinks_keeps _).2
        · rfl
  | contextRemoved id =>
    refine hFound id (fun c => modify_shrinks (f := fun x => { x with exited := true }) c.key
      (fun _ => rfl) fun _ => rfl) (fun hFind => ?_) (fun c hFind => ?_) rfl rfl
    · simp only [ProxyMemory.step, hFind]
    · simp only [ProxyMemory.step, hFind]
  | contextFreed key =>
    cases hContext : w.state.context key with
    | none => exact hQuiet (by simp [ProxyMemory.step, hContext]) (Shrinks.refl _) rfl rfl
    | some c =>
      by_cases hFree : (c.exited && c.memCacheList.all fun m => !m.pending) = true
      · refine hQuiet ?_ (filter_shrinks fun x => x.key ≠ key) rfl rfl
        simp only [ProxyMemory.step, hContext, hFree, ↓reduceIte]
      · refine hQuiet ?_ (Shrinks.refl _) rfl rfl
        simp only [ProxyMemory.step, hContext, hFree, Bool.false_eq_true, ↓reduceIte]
  | setRcDone =>
    refine hQuiet rfl (shrinks_map (fun x => (setContextLinks_keeps x).1) (fun x => ?_)
      (fun m hm => List.mem_append_right _ hm) fun hFalse => by cases hFalse) rfl rfl
    rw [(setContextLinks_keeps x).2]
  | channelClosed =>
    refine hQuiet rfl ?_ rfl rfl
    exact ⟨fun y hy => .inr ⟨y, hy, rfl, fun _ hm => hm⟩, List.Sublist.refl _,
      fun m hm => List.mem_append_right _ hm, rfl, fun hKeyed => ⟨hKeyed.nodup, hKeyed.bound⟩, id⟩
  | contextReadMem key address size errno => exact ⟨_, rfl, h.read key address size⟩
  | validateMemoryCache serial r =>
    refine ⟨_, ?_, h.validate serial r⟩
    show (w.state.validateMemoryCache serial r).map _ = _
    rw [h.validate_eq]
    rfl
  | memoryChanged id addr size => exact h.memoryChanged hIntended
  | suspended id => exact h.suspended hIntended
  | resumed id =>
    refine hFound id (fun c => modify_shrinks (f := fun x => { x with intercepted := false }) c.key
      (fun _ => rfl) fun _ => rfl) (fun hFind => ?_) (fun c hFind => ?_) rfl rfl
    · simp only [ProxyMemory.step, hFind]
    · simp only [ProxyMemory.step, hFind]

/-- What is in the block is copied. -/
theorem copy_inside {address size : UInt64} (h : m.Inside address size) :
    ∃ bytes, m.copy address size = some bytes ∧ m.Gives address size bytes := by
  obtain ⟨hLow, hHigh⟩ := h
  have hSub : (address - m.addr).toNat = address.toNat - m.addr.toNat :=
    UInt64.toNat_sub_of_le _ _ hLow
  have hBuf := m.hBuf
  refine ⟨_, if_pos (by omega), ?_, fun i hi => ?_⟩
  · simp only [List.length_take, List.length_drop]
    omega
  · rw [List.getElem?_take_of_lt hi, List.getElem?_drop, hSub]
    congr 1
    omega

/-- A valid range that contains what is read passes the test of the code. -/
theorem valid_of_contains {address size : UInt64} {e : ErrorAddress} (he : e ∈ m.errorsAddress)
    (h : e.Contains address size) : m.valid address size = true := by
  obtain ⟨hStat, hLow, hHigh⟩ := h
  have hSub : (address - e.addr).toNat = address.toNat - e.addr.toNat :=
    UInt64.toNat_sub_of_le _ _ hLow
  have hSize := e.size.toNat_lt
  refine List.any_eq_true.2 ⟨e, he, ?_⟩
  simp only [Bool.and_eq_true, decide_eq_true_eq, UInt64.le_iff_toNat_le, UInt64.toNat_add, hSub]
  exact ⟨⟨hStat, hLow⟩, by omega⟩

/-- In every run whose steps are as intended no assertion fails, and a read of the state that is
reached stays in the buffer of its block, gives the bytes of the block, which are fresh, and reports
the error that covers it. -/
theorem reads_are_coherent {actions : List (Action E)}
    (h : Meets watch (fun w a => Intended w.state a) Watched.init actions) :
    ∃ w : Watched E, run watch Watched.init actions = some w ∧
      ∀ key address size errno, Intended w.state (.contextReadMem key address size errno) →
        w.state.read key address size errno ≠ .outside ∧
        ∀ m bytes errno', w.state.read key address size errno = .served m bytes errno' →
          w.Fresh key m ∧ m.Gives address size bytes ∧
            (errno'.isSome = true ↔ m.ErrorCovers address size) := by
  obtain ⟨w, hRun, hCoherent⟩ := run_total (P := Coherent)
    (fun w a hw hIntended => hw.step hIntended) coherent_init h
  refine ⟨w, hRun, fun key address size errno hIntended => ?_⟩
  unfold State.read
  split
  · exact ⟨nofun, nofun⟩
  split
  · exact ⟨nofun, nofun⟩
  split
  · exact ⟨nofun, nofun⟩
  rename_i n hBlock
  split
  · exact ⟨nofun, nofun⟩
  rename_i hFilled
  rw [Bool.not_eq_true] at hFilled
  obtain ⟨c, hc, hn⟩ := Option.bind_eq_some_iff.1 hBlock
  have hKey : c.key = key := by simpa using List.find?_some hc
  obtain ⟨hInside, hErrno⟩ := hIntended c n hc hn hFilled
  obtain ⟨bytes, hCopy, hGives⟩ := copy_inside hInside
  rw [hCopy]
  refine ⟨nofun, fun m bytes' errno' hRead => ?_⟩
  cases hRead
  refine ⟨?_, hGives, ?_⟩
  · exact hKey ▸ hCoherent.fresh c (List.mem_of_find?_eq_some hc) n (List.mem_of_find?_eq_some hn)
      hFilled
  · unfold MemoryCache.errnoAfter MemoryCache.ErrorCovers
    cases hError : n.error with
    | none => simp
    | some e =>
      cases hValid : n.valid address size with
      | false =>
        refine iff_of_true rfl ⟨rfl, fun e he hContains => ?_⟩
        cases hValid.symm.trans (valid_of_contains he hContains)
      | true =>
        obtain ⟨rfl, e', he, hContains⟩ := hErrno (by rw [hError]; rfl) hValid
        exact iff_of_false (by simp) fun hCovers => hCovers.2 e' he hContains

/-! ## Runs that go wrong -/

def oneBlock : List (Action Unit) :=
  [.contextAdded "p" "" "p" false, .setRcDone, .contextReadMem 0 4096 4 none,
    .validateMemoryCache 0 ⟨[1, 2, 3, 4], none, []⟩]

/-- A second block, and a change of the first one. -/
def changeBehind : List (Action Unit) :=
  oneBlock ++ [.contextReadMem 0 8192 4 none, .validateMemoryCache 1 ⟨[5, 6, 7, 8], none, []⟩,
    .memoryChanged "p" 4096 4]

/-- A block whose last two bytes could not be read. -/
def halfBlock : List (Action Unit) :=
  [.contextAdded "p" "" "p" false, .setRcDone, .contextReadMem 0 4096 4 none,
    .validateMemoryCache 0 ⟨[1, 2], some (), [⟨4096, 2, 0⟩, ⟨4098, 2, 1⟩]⟩]

theorem reads_are_incoherent :
    (∃ w, run watch Watched.init changeBehind = some w ∧
      ∃ m bytes, w.state.read 0 4096 4 none = .served m bytes none ∧ ¬ w.Fresh 0 m) ∧
    ∃ w, run watch Watched.init halfBlock = some w ∧
      ∃ m bytes, w.state.read 0 4096 2 (some ()) = .served m bytes (some ()) ∧
        ¬ m.ErrorCovers 4096 2 := by
  refine ⟨⟨_, rfl, _, _, rfl, fun hFresh => ?_⟩, _, rfl, _, _, rfl, fun hCovers => ?_⟩
  · have hTime := hFresh _ List.mem_cons_self (by decide) ?_
    · revert hTime
      decide
    · rintro r hr
      cases hr
      exact ⟨4096, by decide⟩
  · exact hCovers.2 _ List.mem_cons_self ⟨rfl, by decide, by decide⟩

theorem noneBehind_one (m : MemoryCache E) : NoneBehind free hit [m] := by
  intro before n after hSplit _ _ x hx
  cases before with
  | nil => cases hx
  | cons y ys => simp at hSplit

theorem oneBlock_meets (a : Action Unit)
    (ha : ∀ w, run watch Watched.init oneBlock = some w → Intended w.state a) :
    Meets watch (fun w a => Intended w.state a) Watched.init (oneBlock ++ [a]) := by
  refine ⟨trivial, fun _ h => ?_⟩
  cases h
  refine ⟨trivial, fun _ h => ?_⟩
  cases h
  refine ⟨fun c m hc hm => ?_, fun _ h => ?_⟩
  · cases hc
    cases hm
  cases h
  refine ⟨trivial, fun _ h => ?_⟩
  cases h
  exact ⟨ha _ rfl, fun _ _ => trivial⟩

theorem reads_are_coherent_change :
    ∃ w : Watched Unit,
      run watch Watched.init (oneBlock ++ [.memoryChanged "p" 4096 4]) = some w ∧
        ∀ key address size errno, Intended w.state (.contextReadMem key address size errno) →
          w.state.read key address size errno ≠ .outside ∧
          ∀ m bytes errno', w.state.read key address size errno = .served m bytes errno' →
            w.Fresh key m ∧ m.Gives address size bytes ∧
              (errno'.isSome = true ↔ m.ErrorCovers address size) :=
  reads_are_coherent (oneBlock_meets _ fun w hw c hc x hx _ => by
    cases hw
    rw [List.mem_singleton.1 hx]
    exact noneBehind_one _)

end TcfAgent.ProxyMemory

import TcfAgent.Services.BreakpointStore

/-!
# The identity of breakpoints

Every breakpoint of a client has an identifier, is linked in the bucket of it, and no other
one has the same: as long as an attribute object names its ID once, and does not give an empty
one. The identifier that is looked up is that of the first ID attribute, the one that is stored
comes from all of them, and an ID attribute that is given less often the next time empties it.

Main results:

* `setBreakpointAttributes_id` — what is stored is what has been looked up;
* `step_inv`                   — a step keeps the invariant, and no assertion fails;
* `breakpoint_identity`        — nor in a run.
-/


namespace TcfAgent.BreakpointStore

open TcfAgent.Lib TcfAgent.JsonString
open TcfAgent.Replanting (Loc Turn World Follows Rel)

/-! ## Attributes -/

/-- How often the attributes name an ID. -/
def idCount (attrs : List BreakpointAttribute) : Nat := attrs.countP (·.name = breakpointId)

theorem idCount_cons (attr : BreakpointAttribute) (attrs : List BreakpointAttribute) :
    idCount (attr :: attrs) = idCount attrs + if attr.name = breakpointId then 1 else 0 := by
  simp [idCount, List.countP_cons]

/-- An attribute of another name is taken out. -/
theorem idCount_eraseP_of_ne {name : List UInt8} (hName : name ≠ breakpointId)
    (attrs : List BreakpointAttribute) :
    idCount (attrs.eraseP (·.name = name)) = idCount attrs := by
  induction attrs with
  | nil => rfl
  | cons attr attrs ih =>
    by_cases hAttr : attr.name = name
    · have hOther : ¬ attr.name = breakpointId := fun h => hName (hAttr.symm.trans h)
      rw [List.eraseP_cons_of_pos (by simpa using hAttr), idCount_cons, if_neg hOther]
      rfl
    · rw [List.eraseP_cons_of_neg (by simpa using hAttr), idCount_cons, idCount_cons, ih]

theorem idCount_eraseP (attrs : List BreakpointAttribute) :
    idCount (attrs.eraseP (·.name = breakpointId)) = idCount attrs - 1 := by
  induction attrs with
  | nil => rfl
  | cons attr attrs ih =>
    by_cases hAttr : attr.name = breakpointId
    · rw [List.eraseP_cons_of_pos (by simpa using hAttr), idCount_cons, if_pos hAttr]
      rfl
    · rw [List.eraseP_cons_of_neg (by simpa using hAttr), idCount_cons, idCount_cons, ih,
        if_neg hAttr]
      rfl

/-- What storing and resetting attributes leaves alone. -/
structure Kept (bp bp' : BreakpointInfo) : Prop where
  key : bp'.key = bp.key
  bucket : bp'.bucket = bp.bucket
  clientCnt : bp'.clientCnt = bp.clientCnt

variable {bp : BreakpointInfo}

theorem Kept.rfl : Kept bp bp := ⟨.refl _, .refl _, .refl _⟩

theorem Kept.trans {bp₁ bp₂ bp₃ : BreakpointInfo} (h : Kept bp₁ bp₂) (h' : Kept bp₂ bp₃) :
    Kept bp₁ bp₃ :=
  ⟨h'.key.trans h.key, h'.bucket.trans h.bucket, h'.clientCnt.trans h.clientCnt⟩

theorem kept_store (bp : BreakpointInfo) (attr : BreakpointAttribute) :
    Kept bp (bp.store attr) := by
  unfold BreakpointInfo.store
  split
  · exact { Kept.rfl with }
  split
  · split
    · exact { Kept.rfl with }
    · exact .rfl
  · exact .rfl

theorem kept_reset (bp : BreakpointInfo) (attr : BreakpointAttribute) :
    Kept bp (bp.reset attr) := by
  unfold BreakpointInfo.reset
  split
  · exact { Kept.rfl with }
  split
  · exact { Kept.rfl with }
  · exact .rfl

theorem kept_foldl_reset (attrs : List BreakpointAttribute) (bp : BreakpointInfo) :
    Kept bp (attrs.foldl BreakpointInfo.reset bp) := by
  induction attrs generalizing bp with
  | nil => exact .rfl
  | cons attr attrs ih => exact (kept_reset bp attr).trans (ih _)

theorem kept_storeAttributes (attrs old : List BreakpointAttribute) (bp : BreakpointInfo) :
    Kept bp (storeAttributes attrs old bp).2.2 := by
  induction attrs generalizing old bp with
  | nil => exact .rfl
  | cons attr attrs ih =>
    unfold storeAttributes
    split
    · exact ih _ bp
    · exact (kept_store bp attr).trans (ih _ _)

theorem kept_setBreakpointAttributes (attrs : List BreakpointAttribute) (bp : BreakpointInfo) :
    Kept bp (setBreakpointAttributes attrs bp).2 :=
  { (kept_storeAttributes attrs bp.attrs bp).trans (kept_foldl_reset _ _) with }

theorem store_id_of_ne {attr : BreakpointAttribute} (hName : attr.name ≠ breakpointId)
    (bp : BreakpointInfo) : (bp.store attr).id = bp.id := by
  unfold BreakpointInfo.store
  rw [if_neg hName]
  split
  · split
    · rfl
    · rfl
  · rfl

variable {attrs : List BreakpointAttribute}

theorem foldl_reset_id (h : idCount attrs = 0)
    (bp : BreakpointInfo) : (attrs.foldl BreakpointInfo.reset bp).id = bp.id := by
  induction attrs generalizing bp with
  | nil => rfl
  | cons attr attrs ih =>
    rw [idCount_cons] at h
    split at h
    · omega
    · rename_i hName
      rw [List.foldl_cons, ih h]
      unfold BreakpointInfo.reset
      rw [if_neg hName]
      split
      · rfl
      · rfl

/-- Attributes without an ID leave the identifier alone, and the old ID attributes too. -/
theorem storeAttributes_of_none (h : idCount attrs = 0)
    (old : List BreakpointAttribute) (bp : BreakpointInfo) :
    (storeAttributes attrs old bp).2.2.id = bp.id ∧
      idCount (storeAttributes attrs old bp).2.1 = idCount old := by
  induction attrs generalizing old bp with
  | nil => exact ⟨rfl, rfl⟩
  | cons attr attrs ih =>
    rw [idCount_cons] at h
    split at h
    · omega
    · rename_i hName
      unfold storeAttributes
      split
      · obtain ⟨hId, hCount⟩ := ih h (old.eraseP (·.name = attr.name)) bp
        exact ⟨hId, hCount.trans (idCount_eraseP_of_ne hName old)⟩
      · obtain ⟨hId, hCount⟩ := ih h (old.eraseP (·.name = attr.name)) (bp.store attr)
        exact ⟨hId.trans (store_id_of_ne hName bp), hCount.trans (idCount_eraseP_of_ne hName old)⟩

variable {id : List UInt8}

/-- With one ID attribute, and one at most before, the identifier that is looked up is the one
that is stored. -/
theorem storeAttributes_of_one (h : idCount attrs = 1)
    (hRead : readIdAttribute attrs = some id) {old : List BreakpointAttribute}
    (hOld : idCount old ≤ 1) (hKnown : idCount old = 1 → bp.id = id) :
    (storeAttributes attrs old bp).2.2.id = id ∧
      idCount (storeAttributes attrs old bp).2.1 = 0 := by
  induction attrs generalizing old bp with
  | nil => simp [idCount] at h
  | cons attr attrs ih =>
    rw [idCount_cons] at h
    -- only the ID attribute touches the ID
    by_cases hName : attr.name = breakpointId
    · rw [if_pos hName] at h
      have hNone : idCount attrs = 0 := by omega
      have hLeft : idCount (old.eraseP (·.name = attr.name)) = 0 := by
        rw [hName, idCount_eraseP]
        omega
      unfold storeAttributes
      split
      · -- the value is the same: there was an ID attribute
        rename_i hSame
        have hKnown' : bp.id = id := by
          obtain ⟨b, hFind, -⟩ := Option.map_eq_some_iff.1 hSame
          refine hKnown (Nat.le_antisymm hOld ?_)
          refine List.countP_pos_iff.2 ⟨b, List.mem_of_find?_eq_some hFind, ?_⟩
          have hb := List.find?_some hFind
          rw [hName] at hb
          exact hb
        obtain ⟨hId, hCount⟩ := storeAttributes_of_none hNone (old.eraseP (·.name = attr.name)) bp
        exact ⟨hId.trans hKnown', hCount.trans hLeft⟩
      · obtain ⟨hId, hCount⟩ :=
          storeAttributes_of_none hNone (old.eraseP (·.name = attr.name)) (bp.store attr)
        refine ⟨hId.trans ?_, hCount.trans hLeft⟩
        have hFind : (attr :: attrs).find? (·.name = breakpointId) = some attr :=
          List.find?_cons_of_pos (by simpa using hName)
        unfold readIdAttribute at hRead
        rw [hFind] at hRead
        simp only [Option.ite_none_right_eq_some, Option.some.injEq] at hRead
        obtain ⟨hRest, rfl⟩ := hRead
        have hSome : (jsonReadString attr.value).rest.isSome = true := by simp [hRest]
        unfold BreakpointInfo.store BreakpointInfo.id
        rw [if_pos hName, cString_storeString _ _ hSome, cString_storeString _ _ hSome]
    · rw [if_neg hName] at h
      have hRead' : readIdAttribute attrs = some id := by
        unfold readIdAttribute at hRead ⊢
        rwa [List.find?_cons_of_neg (by simpa using hName)] at hRead
      have hCount := idCount_eraseP_of_ne hName old
      unfold storeAttributes
      split
      · exact ih h hRead' (hCount.symm ▸ hOld) fun hOne => hKnown (hCount.symm.trans hOne)
      · exact ih h hRead' (hCount.symm ▸ hOld) fun hOne =>
          (store_id_of_ne hName bp).trans (hKnown (hCount.symm.trans hOne))

theorem setBreakpointAttributes_id (h : idCount attrs = 1)
    (hRead : readIdAttribute attrs = some id)
    (hOld : idCount bp.attrs ≤ 1) (hKnown : idCount bp.attrs = 1 → bp.id = id) :
    (setBreakpointAttributes attrs bp).2.id = id := by
  obtain ⟨hId, hLeft⟩ := storeAttributes_of_one h hRead hOld hKnown
  exact (foldl_reset_id hLeft _).trans hId

theorem setBreakpointAttributes_id_of_none
    (h : idCount attrs = 0) (hOld : idCount bp.attrs = 0) :
    (setBreakpointAttributes attrs bp).2.id = bp.id := by
  obtain ⟨hId, hLeft⟩ := storeAttributes_of_none h bp.attrs bp
  exact (foldl_reset_id (hLeft.trans hOld) _).trans hId

/-- The value of another attribute is replaced, or one is added. -/
theorem idCount_setBreakpointAttribute {name : List UInt8} (hName : name ≠ breakpointId)
    (value : List UInt8) (attrs : List BreakpointAttribute) :
    idCount (setBreakpointAttribute name value attrs) = idCount attrs := by
  induction attrs with
  | nil => simp [setBreakpointAttribute, idCount, hName]
  | cons attr attrs ih =>
    unfold setBreakpointAttribute
    split
    · rw [idCount_cons, idCount_cons]
    · rw [idCount_cons, idCount_cons, ih]

/-! ## The invariant -/

variable {Ch G T I : Type} [DecidableEq Ch] [DecidableEq G] [DecidableEq T] [DecidableEq I]

/-- The breakpoint of a client. -/
structure Linked (refs : List (Ch × Nat)) (bp : BreakpointInfo) : Prop where
  id : bp.id ≠ []
  bucket : bp.bucket = some (id2bpHash bp.id)
  named : idCount bp.attrs = 1
  cnt : bp.clientCnt = refs.countP (·.2 = bp.key)

/-- An eventpoint. -/
structure Own (refs : List (Ch × Nat)) (bp : BreakpointInfo) : Prop where
  id : bp.id = []
  bucket : bp.bucket = none
  refs : refs.countP (·.2 = bp.key) = 0

/-- Keys are unique, and references are to breakpoints that there are. -/
structure Inv (s : State Ch G T I) : Prop where
  keys : (s.breakpoints.map (·.key)).Nodup
  fresh : ∀ bp ∈ s.breakpoints, bp.key < s.nextKey
  refs : s.refs.Nodup
  known : ∀ ref ∈ s.refs, ∃ bp ∈ s.breakpoints, bp.key = ref.2
  each : ∀ bp ∈ s.breakpoints, Linked s.refs bp ∨ Own s.refs bp
  distinct : ∀ bp ∈ s.breakpoints, ∀ bp' ∈ s.breakpoints, bp.id ≠ [] → bp.id = bp'.id →
    bp.key = bp'.key
  rep : ∃ t, Follows Rel s.rep t

omit [DecidableEq Ch] [DecidableEq G] [DecidableEq T] [DecidableEq I] in
theorem length_linkClients (s : State Ch G T I) (key : Nat) :
    (s.linkClients key).length = s.refs.countP (·.2 = key) := by
  rw [State.linkClients, List.length_map, List.countP_eq_length_filter]

variable {s : State Ch G T I} {key : Nat}

omit [DecidableEq Ch] [DecidableEq G] [DecidableEq T] [DecidableEq I] in
theorem linkClients_eq_nil :
    s.linkClients key = [] ↔ s.refs.countP (·.2 = key) = 0 := by
  rw [← length_linkClients, List.length_eq_zero_iff]

omit [DecidableEq Ch] [DecidableEq G] [DecidableEq T] [DecidableEq I] in
theorem mem_linkClients {c : Ch} :
    c ∈ s.linkClients key ↔ (c, key) ∈ s.refs := by
  simp [State.linkClients]

variable {refs : List (Ch × Nat)} {bp bp' : BreakpointInfo}

omit [DecidableEq Ch] [DecidableEq T] [DecidableEq I] in
/-- A breakpoint is written back, with its key and its identifier, and references to it come
and go. -/
theorem Inv.write (h : Inv s)
    (hbp : bp ∈ s.breakpoints) (hKey : bp'.key = bp.key) (hId : bp'.id = bp.id)
    (hRefs : refs.Nodup)
    (hFrom : ∀ ref ∈ refs, ref ∈ s.refs ∨ ref.2 = bp.key)
    (hOther : ∀ key, key ≠ bp.key → refs.countP (·.2 = key) = s.refs.countP (·.2 = key))
    (hEach : Linked refs bp' ∨ Own refs bp') : Inv { s.setBp bp' with refs := refs } := by
  have hOld (b : BreakpointInfo) (hb : b ∈ (s.setBp bp').breakpoints) :
      b = bp' ∨ b ∈ s.breakpoints ∧ b.key ≠ bp.key := by
    rw [← hKey]
    exact mem_replace hb
  have hLike (b : BreakpointInfo) (hb : b ∈ (s.setBp bp').breakpoints) :
      ∃ a ∈ s.breakpoints, a.key = b.key ∧ a.id = b.id := by
    rcases hOld b hb with rfl | ⟨hb, -⟩
    · exact ⟨bp, hbp, hKey.symm, hId.symm⟩
    · exact ⟨b, hb, rfl, rfl⟩
  refine {
    keys := ?_
    fresh := fun b hb => ?_
    refs := hRefs
    known := fun ref href => ?_
    each := fun b hb => ?_
    distinct := fun b hb b' hb' hSome hSame => ?_
    rep := h.rep }
  · show ((replace BreakpointInfo.key bp' s.breakpoints).map (·.key)).Nodup
    rw [map_replace]
    exact h.keys
  · obtain ⟨a, ha, hKey', -⟩ := hLike b hb
    exact hKey' ▸ h.fresh a ha
  · have hMap (key : Nat) (hIn : ∃ b ∈ s.breakpoints, b.key = key) :
        ∃ b ∈ (s.setBp bp').breakpoints, b.key = key := by
      have hKeys : (s.setBp bp').breakpoints.map (·.key) = s.breakpoints.map (·.key) :=
        map_replace _ _ _
      have hMem : key ∈ (s.setBp bp').breakpoints.map (·.key) := by
        rw [hKeys]
        exact List.mem_map.2 hIn
      exact List.mem_map.1 hMem
    rcases hFrom ref href with hIn | hIn
    · exact hMap _ (h.known ref hIn)
    · exact hMap _ ⟨bp, hbp, hIn.symm⟩
  · rcases hOld b hb with rfl | ⟨hb, hNe⟩
    · exact hEach
    · have hCount := hOther b.key hNe
      rcases h.each b hb with hLinked | hOwn
      · exact .inl { hLinked with cnt := by rw [hCount, hLinked.cnt] }
      · exact .inr { hOwn with refs := hCount.trans hOwn.refs }
  · obtain ⟨a, ha, hKeyA, hIdA⟩ := hLike b hb
    obtain ⟨a', ha', hKeyA', hIdA'⟩ := hLike b' hb'
    rw [← hKeyA, ← hKeyA']
    exact h.distinct a ha a' ha' (hIdA ▸ hSome) (by rw [hIdA, hIdA', hSame])

omit [DecidableEq Ch] [DecidableEq T] [DecidableEq I] in
theorem Inv.setBp (h : Inv s)
    (hbp : bp ∈ s.breakpoints) (hKey : bp'.key = bp.key) (hId : bp'.id = bp.id)
    (hEach : Linked s.refs bp' ∨ Own s.refs bp') : Inv (s.setBp bp') :=
  h.write hbp hKey hId h.refs (fun _ href => .inl href) (fun _ _ => rfl) hEach

omit [DecidableEq Ch] [DecidableEq G] [DecidableEq T] [DecidableEq I] in
theorem mem_setBp (hbp : bp ∈ s.breakpoints)
    (hKey : bp'.key = bp.key) : bp' ∈ (s.setBp bp').breakpoints :=
  mem_replace_self hbp hKey

omit [DecidableEq T] [DecidableEq I] in
/-- Locations are posted. -/
theorem follows_postLocations {rep : Replanting.State G T Nat I} (posts : List (G × Option Nat))
    (h : ∃ t, Follows Rel rep t) : ∃ t, Follows Rel (Replanting.postLocations posts rep) t := by
  obtain ⟨t, h⟩ := h
  obtain ⟨t', h', -⟩ := Replanting.postLocations_follows (h.silent rfl h.related.1) posts
  have hKept := Replanting.kept_postLocations posts rep
  exact ⟨t', Replanting.rel_of_mid h' hKept.active hKept.clients h.related.2⟩

omit [DecidableEq T] [DecidableEq I] [DecidableEq Ch] in
theorem Inv.replantBreakpoint (h : Inv s) (w : Contexts G)
    (bp : BreakpointInfo) : Inv (replantBreakpoint w bp s) :=
  { h with rep := follows_postLocations _ h.rep }

omit [DecidableEq Ch] [DecidableEq T] [DecidableEq I] in
theorem Inv.emit (h : Inv s) (e : Broadcast) : Inv (s.emit e) := { h with }

omit [DecidableEq T] [DecidableEq I] [DecidableEq Ch] in
theorem init_inv : Inv (init : State Ch G T I) where
  keys := List.nodup_nil
  fresh := by simp [init]
  refs := List.nodup_nil
  known := by simp [init]
  each := by simp [init]
  distinct := by simp [init]
  rep := ⟨{}, Replanting.init_follows⟩

/-! ## Status -/

omit [DecidableEq T] [DecidableEq I] [DecidableEq Ch] in
/-- A breakpoint that nobody refers to is freed. -/
theorem freeBp_inv (h : Inv s)
    (hbp : bp ∈ s.breakpoints) (hDone : s.rep.generationDone = s.rep.generationPosted)
    (hCnt : bp.clientCnt = 0) (hClients : s.refs.countP (·.2 = bp.key) = 0)
    (hInstructions : s.instructionCnt bp.key = 0) :
    ∃ s', freeBp bp s = some s' ∧ Inv s' ∧ s'.rep = s.rep ∧ s'.refs = s.refs ∧
      ∀ b ∈ s.breakpoints, b.key ≠ bp.key → b ∈ s'.breakpoints := by
  obtain ⟨t, hFollows⟩ := h.rep
  obtain ⟨hPosted, -, hActive, -⟩ := Replanting.idle_of_done hFollows.related.1.1 hDone.symm
  have hIdle : ¬ (s.rep.posted ≠ [] ∨ s.rep.active ≠ []) := by simp [hPosted, hActive]
  have hUnused : ¬ (s.linkClients bp.key ≠ [] ∨ s.instructionCnt bp.key ≠ 0 ∨
      bp.clientCnt ≠ 0) := by
    simp [linkClients_eq_nil.2 hClients, hInstructions, hCnt]
  have hBucket : ¬ (bp.bucket.isSome = true ∧ bp.id = []) := by
    rintro ⟨hSome, hId⟩
    rcases h.each bp hbp with hLinked | hOwn
    · exact hLinked.id hId
    · simp [hOwn.bucket] at hSome
  have hMem (b : BreakpointInfo) : b ∈ s.breakpoints.filter (·.key ≠ bp.key) ↔
      b ∈ s.breakpoints ∧ b.key ≠ bp.key := by simp
  unfold freeBp
  rw [if_neg hIdle, if_neg hUnused, if_neg hBucket]
  refine ⟨_, rfl, {
    keys := h.keys.sublist (List.filter_sublist.map _)
    fresh := fun b hb => h.fresh b ((hMem b).1 hb).1
    refs := h.refs
    known := fun ref href => ?_
    each := fun b hb => h.each b ((hMem b).1 hb).1
    distinct := fun b hb b' hb' => h.distinct b ((hMem b).1 hb).1 b' ((hMem b').1 hb').1
    rep := h.rep }, rfl, rfl, fun b hb hNe => (hMem b).2 ⟨hb, hNe⟩⟩
  obtain ⟨b, hb, hKey⟩ := h.known ref href
  refine ⟨b, (hMem b).2 ⟨hb, fun hSame => ?_⟩, hKey⟩
  refine absurd hClients (Nat.pos_iff_ne_zero.1 (List.countP_pos_iff.2 ⟨ref, href, ?_⟩))
  simp [← hKey, hSame]

omit [DecidableEq T] [DecidableEq I] [DecidableEq Ch] in
/-- The breakpoint is reported or freed, and the others stay. -/
theorem notifyBreakpointStatus_inv (h : Inv s)
    (hbp : bp ∈ s.breakpoints) (hDone : s.rep.generationDone = s.rep.generationPosted) :
    ∃ s', notifyBreakpointStatus bp s = some s' ∧ Inv s' ∧ s'.rep = s.rep ∧ s'.refs = s.refs ∧
      ∀ b ∈ s.breakpoints, b.key ≠ bp.key → b ∈ s'.breakpoints := by
  have hEach := h.each bp hbp
  have hLinked : ¬ (bp.id ≠ [] ∧ bp.clientCnt ≠ (s.linkClients bp.key).length) := by
    rintro ⟨hId, hCnt⟩
    rcases hEach with hLinked | hOwn
    · exact hCnt (by rw [length_linkClients, hLinked.cnt])
    · exact hId hOwn.id
  have hOwn : ¬ (bp.id = [] ∧ s.linkClients bp.key ≠ []) := by
    rintro ⟨hId, hClients⟩
    rcases hEach with hLinked | hOwn
    · exact hLinked.id hId
    · exact hClients (linkClients_eq_nil.2 hOwn.refs)
  unfold notifyBreakpointStatus
  rw [if_neg (not_not.2 hDone), if_neg hLinked, if_neg hOwn]
  split
  · rename_i hCnt
    split
    · rename_i hInstructions
      have hClients : s.refs.countP (·.2 = bp.key) = 0 := by
        rcases hEach with hLinked | hOwn
        · have := hLinked.cnt
          omega
        · exact hOwn.refs
      have hFree {s₁ : State Ch G T I} (h₁ : Inv s₁) (hBps : s₁.breakpoints = s.breakpoints)
          (hRep : s₁.rep = s.rep) (hRefs : s₁.refs = s.refs)
          (hIns : s₁.instructionCnt bp.key = s.instructionCnt bp.key) :
          ∃ s', freeBp bp s₁ = some s' ∧ Inv s' ∧ s'.rep = s.rep ∧ s'.refs = s.refs ∧
            ∀ b ∈ s.breakpoints, b.key ≠ bp.key → b ∈ s'.breakpoints := by
        rw [← hBps, ← hRep, ← hRefs]
        exact freeBp_inv h₁ (hBps ▸ hbp) (by rw [hRep]; exact hDone) hCnt
          (hRefs ▸ hClients) (hIns.trans hInstructions)
      split
      · exact hFree (h.emit _) rfl rfl rfl rfl
      · exact hFree h rfl rfl rfl rfl
    · exact ⟨s, rfl, h, rfl, rfl, fun b hb _ => hb⟩
  split
  · have hInv : Inv (s.setBp { bp with statusChanged := false }) :=
      h.setBp hbp rfl rfl (hEach.imp (fun hLinked => { hLinked with }) fun hOwn => { hOwn with })
    have hStay (b : BreakpointInfo) (hb : b ∈ s.breakpoints) (hNe : b.key ≠ bp.key) :
        b ∈ (s.setBp { bp with statusChanged := false }).breakpoints := mem_replace_of_ne hb hNe
    split
    · exact ⟨_, rfl, hInv.emit _, rfl, rfl, hStay⟩
    · exact ⟨_, rfl, hInv, rfl, rfl, hStay⟩
  · exact ⟨s, rfl, h, rfl, rfl, fun b hb _ => hb⟩

omit [DecidableEq T] [DecidableEq I] [DecidableEq Ch] in
theorem notifyAll_inv {bps : List BreakpointInfo} (h : Inv s)
    (hDone : s.rep.generationDone = s.rep.generationPosted)
    (hKeys : (bps.map (·.key)).Nodup) (hBps : ∀ bp ∈ bps, bp ∈ s.breakpoints) :
    ∃ s', notifyAll bps s = some s' ∧ Inv s' := by
  induction bps generalizing s with
  | nil => exact ⟨s, rfl, h⟩
  | cons bp bps ih =>
    rw [List.map_cons, List.nodup_cons] at hKeys
    obtain ⟨s₁, hEq, h₁, hRep, -, hStay⟩ :=
      notifyBreakpointStatus_inv h (hBps bp List.mem_cons_self) hDone
    rw [notifyAll, hEq]
    refine ih h₁ (by rw [hRep]; exact hDone) hKeys.2 fun b hb => ?_
    refine hStay b (hBps b (List.mem_cons_of_mem _ hb)) fun hSame => hKeys.1 ?_
    exact List.mem_map.2 ⟨b, hb, hSame⟩

omit [DecidableEq T] [DecidableEq I] [DecidableEq Ch] in
theorem doneReplantingBreakpoints_inv (h : Inv s)
    (hDone : s.rep.generationDone = s.rep.generationPosted) :
    ∃ s', doneReplantingBreakpoints s = some s' ∧ Inv s' := by
  obtain ⟨t, hFollows⟩ := h.rep
  obtain ⟨hPosted, -, hActive, -⟩ := Replanting.idle_of_done hFollows.related.1.1 hDone.symm
  unfold doneReplantingBreakpoints
  rw [if_neg (by simp [hPosted, hActive])]
  exact notifyAll_inv h hDone h.keys fun _ hbp => hbp

/-! ## References -/

omit [DecidableEq Ch] [DecidableEq G] [DecidableEq T] [DecidableEq I] in
theorem mem_of_bp?
    (h : s.bp? key = some bp) : bp ∈ s.breakpoints ∧ bp.key = key :=
  ⟨List.mem_of_find?_eq_some h, by simpa using List.find?_some h⟩

variable {ref : Ch × Nat}

omit [DecidableEq Ch] [DecidableEq T] [DecidableEq I] in
theorem Inv.bp_of_ref (h : Inv s) (href : ref ∈ s.refs) :
    ∃ bp, s.bp? ref.2 = some bp ∧ bp ∈ s.breakpoints ∧ bp.key = ref.2 := by
  obtain ⟨bp, hbp, hKey⟩ := h.known ref href
  exact ⟨bp, hKey ▸ find_key h.keys hbp, hbp, hKey⟩

omit [DecidableEq Ch] [DecidableEq T] [DecidableEq I] in
/-- The breakpoint of a reference belongs to a client. -/
theorem Inv.linked_of_ref (h : Inv s) (href : ref ∈ s.refs)
    (hbp : bp ∈ s.breakpoints) (hKey : bp.key = ref.2) :
    Linked s.refs bp := by
  refine (h.each bp hbp).resolve_right fun hOwn => ?_
  refine absurd hOwn.refs (Nat.pos_iff_ne_zero.1 (List.countP_pos_iff.2 ⟨ref, href, ?_⟩))
  simp [hKey]

theorem countP_erase_of_ne
    (hKey : key ≠ ref.2) : (refs.erase ref).countP (·.2 = key) = refs.countP (·.2 = key) := by
  rw [List.countP_erase, if_neg]
  · rfl
  · rintro ⟨-, hEq⟩
    exact hKey (by simpa using hEq : ref.2 = key).symm

omit [DecidableEq T] [DecidableEq I] in
theorem unlinkRef_inv (h : Inv s) (href : ref ∈ s.refs) :
    ∃ bp s', unlinkRef ref s = some (bp, s') ∧ Inv s' ∧ bp ∈ s'.breakpoints ∧
      Linked s'.refs bp ∧ s'.refs = s.refs.erase ref ∧ s'.rep = s.rep := by
  obtain ⟨bp, hFind, hbp, hKey⟩ := h.bp_of_ref href
  have hLinked := h.linked_of_ref href hbp hKey
  obtain ⟨bp', hbp'⟩ : ∃ bp', bp' = { bp with clientCnt := bp.clientCnt - 1 } := ⟨_, rfl⟩
  have hCount : s.refs.countP (·.2 = bp.key) = (s.refs.erase ref).countP (·.2 = bp.key) + 1 := by
    have hPos : 0 < s.refs.countP (·.2 = bp.key) :=
      List.countP_pos_iff.2 ⟨ref, href, by simp [hKey]⟩
    rw [List.countP_erase, if_pos ⟨href, by simp [hKey]⟩]
    omega
  have hCnt : bp.clientCnt = ((s.refs.erase ref).countP (·.2 = bp.key) + 1 : Nat) := by
    rw [hLinked.cnt, hCount]
  have hLinked' : Linked (s.refs.erase ref) bp' := by
    subst hbp'
    refine { hLinked with cnt := ?_ }
    show bp.clientCnt - 1 = ((s.refs.erase ref).countP (·.2 = bp.key) : Nat)
    omega
  have hInv : Inv { s.setBp bp' with refs := s.refs.erase ref } := by
    refine h.write hbp (by rw [hbp']) (by subst hbp'; rfl) (h.refs.erase ref)
      (fun r hr => .inl (List.mem_of_mem_erase hr)) (fun key hNe => ?_) (.inl hLinked')
    exact countP_erase_of_ne (hKey ▸ hNe)
  refine ⟨bp', _, ?_, hInv, mem_setBp hbp (by rw [hbp']), hLinked', rfl, rfl⟩
  unfold unlinkRef
  rw [hFind, hbp']
  rfl

variable (w : Contexts G)

omit [DecidableEq T] [DecidableEq I] in
theorem removeRef_inv (h : Inv s)
    (href : ref ∈ s.refs) :
    ∃ s', removeRef w ref s = some s' ∧ Inv s' ∧ s'.refs = s.refs.erase ref := by
  obtain ⟨bp, s₁, hEq, h₁, hbp, hLinked, hRefs, -⟩ := unlinkRef_inv h href
  have hInv := h₁.replantBreakpoint w bp
  unfold removeRef
  rw [hEq, Option.bind_some]
  dsimp only
  split
  · exact ⟨_, rfl, hInv, hRefs⟩
  · rename_i hNone
    have hZero : bp.clientCnt = 0 := by
      have hNil := linkClients_eq_nil.1 (not_not.1 hNone)
      have hCnt := hLinked.cnt
      rw [show s₁.refs.countP (·.2 = bp.key) = 0 from hNil] at hCnt
      simpa using hCnt
    rw [if_neg (not_not.2 hZero)]
    split
    · rename_i hDone
      obtain ⟨s', hEq', h', -, hRefs', -⟩ := notifyBreakpointStatus_inv hInv hbp hDone
      exact ⟨s', hEq', h', hRefs'.trans hRefs⟩
    · exact ⟨_, rfl, hInv, hRefs⟩

omit [DecidableEq T] [DecidableEq I] in
theorem removeRefs_inv (h : Inv s)
    (hNodup : refs.Nodup) (hRefs : ∀ ref ∈ refs, ref ∈ s.refs) :
    ∃ s', removeRefs w refs s = some s' ∧ Inv s' := by
  induction refs generalizing s with
  | nil => exact ⟨s, rfl, h⟩
  | cons ref refs ih =>
    obtain ⟨hNot, hNodup'⟩ := List.nodup_cons.1 hNodup
    obtain ⟨s₁, hEq, h₁, hRefs₁⟩ := removeRef_inv w h (hRefs ref List.mem_cons_self)
    rw [removeRefs, hEq]
    refine ih h₁ hNodup' fun r hr => ?_
    rw [hRefs₁, h.refs.mem_erase_iff]
    exact ⟨fun hSame => hNot (hSame ▸ hr), hRefs r (List.mem_cons_of_mem _ hr)⟩

omit [DecidableEq T] [DecidableEq I] in
theorem deleteBreakpointRefs_inv (c : Ch) (h : Inv s) :
    ∃ s', deleteBreakpointRefs w c s = some s' ∧ Inv s' :=
  removeRefs_inv w h (h.refs.filter _) fun _ href => (List.mem_filter.1 href).1

omit [DecidableEq T] [DecidableEq I] in
/-- The references of temporary breakpoints, in the middle of a generation. -/
theorem removeTemporary_inv (h : Inv s) (hNodup : refs.Nodup) (hRefs : ∀ ref ∈ refs, ref ∈ s.refs) :
    ∃ posts s', removeTemporary w refs s = some (posts, s') ∧ Inv s' ∧ s'.rep = s.rep := by
  induction refs generalizing s with
  | nil => exact ⟨[], s, rfl, h, rfl⟩
  | cons ref refs ih =>
    obtain ⟨hNot, hNodup'⟩ := List.nodup_cons.1 hNodup
    obtain ⟨bp, s₁, hEq, h₁, -, hLinked, hRefs₁, hRep₁⟩ :=
      unlinkRef_inv h (hRefs ref List.mem_cons_self)
    have hLast : ¬ (s₁.linkClients bp.key = [] ∧ bp.clientCnt ≠ 0) := by
      rintro ⟨hNone, hCnt⟩
      exact hCnt (by rw [hLinked.cnt, linkClients_eq_nil.1 hNone]; rfl)
    obtain ⟨posts, s', hEq', h', hRep'⟩ := ih h₁ hNodup' fun r hr => by
      rw [hRefs₁, h.refs.mem_erase_iff]
      exact ⟨fun hSame => hNot (hSame ▸ hr), hRefs r (List.mem_cons_of_mem _ hr)⟩
    refine ⟨replantPosts w bp s₁ ++ posts, s', ?_, h', hRep'.trans hRep₁⟩
    rw [removeTemporary, hEq, Option.bind_some]
    dsimp only
    rw [if_neg hLast, hEq']
    rfl

/-! ## Commands -/

/-- An attribute object that is accepted names its ID once, and the ID is not empty. -/
def OneId (attrs : List BreakpointAttribute) : Prop :=
  match readIdAttribute attrs with
  | none => True
  | some id => id ≠ [] ∧ idCount attrs = 1

instance (attrs : List BreakpointAttribute) : Decidable (OneId attrs) := by
  unfold OneId
  split <;> infer_instance

omit [DecidableEq T] [DecidableEq I] in
theorem linkRef_inv (c : Ch) (h : Inv s)
    (hbp : bp ∈ s.breakpoints) (hLinked : Linked s.refs bp) :
    Inv (linkRef c bp s).2 ∧ (linkRef c bp s).1.id = bp.id ∧
      c ∈ (linkRef c bp s).2.linkClients (linkRef c bp s).1.key := by
  unfold linkRef
  split
  · rename_i hMem
    exact ⟨h, rfl, hMem⟩
  · rename_i hNew
    have hNotMem : (c, bp.key) ∉ s.refs := fun hIn => hNew (mem_linkClients.2 hIn)
    have hLinked' : Linked (s.refs ++ [(c, bp.key)]) { bp with clientCnt := bp.clientCnt + 1 } := by
      refine { hLinked with cnt := ?_ }
      simp [List.countP_append, hLinked.cnt]
    have hInv : Inv { s.setBp { bp with clientCnt := bp.clientCnt + 1 } with
        refs := s.refs ++ [(c, bp.key)] } := by
      refine h.write hbp ?_ ?_ ?_ (fun r hr => ?_) (fun key hNe => ?_) (.inl hLinked')
      · rfl
      · rfl
      · exact List.nodup_append.2 ⟨h.refs, List.nodup_singleton _, by
          rintro x hx y hy rfl
          exact hNotMem (List.mem_singleton.1 hy ▸ hx)⟩
      · exact (List.mem_append.1 hr).imp id fun hr => by rw [List.mem_singleton.1 hr]
      · simp [List.countP_append, Ne.symm hNe]
    exact ⟨hInv, rfl, mem_linkClients.2 (by simp)⟩

omit [DecidableEq T] [DecidableEq I] in
theorem addRef_inv (c : Ch) (chng : Nat)
    (h : Inv s) (hbp : bp ∈ s.breakpoints) (hLinked : Linked s.refs bp) :
    ∃ s', addRef w c chng bp s = some s' ∧ Inv s' := by
  obtain ⟨h₁, hSame, hMem⟩ := linkRef_inv c h hbp hLinked
  have hSome : ¬ (linkRef c bp s).2.linkClients (linkRef c bp s).1.key = [] :=
    List.ne_nil_of_mem hMem
  have hId : (linkRef c bp s).1.id ≠ [] := hSame ▸ hLinked.id
  unfold addRef
  dsimp only
  rw [if_neg hSome]
  obtain ⟨s₂, hState₂, h₂⟩ : ∃ s₂, (if chng ≠ 0 ∨ s.linkClients bp.key = [] ∨
      c ∉ s.linkClients bp.key then replantBreakpoint w (linkRef c bp s).1 (linkRef c bp s).2
      else (linkRef c bp s).2) = s₂ ∧ Inv s₂ := by
    split
    · exact ⟨_, rfl, h₁.replantBreakpoint w _⟩
    · exact ⟨_, rfl, h₁⟩
  rw [hState₂]
  split
  · exact ⟨_, if_neg hId, h₂.emit _⟩
  split
  · exact ⟨_, if_neg hId, h₂.emit _⟩
  · exact ⟨s₂, rfl, h₂⟩

omit [DecidableEq Ch] [DecidableEq G] [DecidableEq T] [DecidableEq I] in
theorem findBreakpoint_eq_some (h : findBreakpoint id s = some bp) :
    bp ∈ s.breakpoints ∧ bp.bucket = some (id2bpHash id) ∧ bp.id = id :=
  ⟨List.mem_of_find?_eq_some h, by simpa using List.find?_some h⟩

omit [DecidableEq Ch] [DecidableEq T] [DecidableEq I] in
theorem Inv.linked_of_find (h : Inv s)
    (hFind : findBreakpoint id s = some bp) : Linked s.refs bp := by
  obtain ⟨hbp, hBucket, -⟩ := findBreakpoint_eq_some hFind
  refine (h.each bp hbp).resolve_right fun hOwn => ?_
  rw [hOwn.bucket] at hBucket
  cases hBucket

omit [DecidableEq Ch] [DecidableEq T] [DecidableEq I] in
/-- A new breakpoint is put into the store. -/
theorem Inv.create (h : Inv s)
    (hKey : bp.key = s.nextKey) (hEach : Linked s.refs bp ∨ Own s.refs bp)
    (hNew : bp.id ≠ [] → ∀ b ∈ s.breakpoints, b.id ≠ bp.id) :
    Inv { s with breakpoints := s.breakpoints ++ [bp], nextKey := s.nextKey + 1 } := by
  have hMem (b : BreakpointInfo) : b ∈ s.breakpoints ++ [bp] ↔ b ∈ s.breakpoints ∨ b = bp := by
    simp
  refine { h with
    keys := ?_
    fresh := fun b hb => ?_
    known := fun ref href => ?_
    each := fun b hb => ?_
    distinct := fun b hb b' hb' hSome hSame => ?_ }
  · rw [List.map_append, List.map_singleton]
    refine List.nodup_append.2 ⟨h.keys, List.nodup_singleton _, ?_⟩
    rintro x hx y hy rfl
    obtain ⟨b, hb, rfl⟩ := List.mem_map.1 hx
    have hLt := h.fresh b hb
    rw [List.mem_singleton.1 hy, hKey] at hLt
    exact Nat.lt_irrefl _ hLt
  · rcases (hMem b).1 hb with hb | rfl
    · exact Nat.lt_succ_of_lt (h.fresh b hb)
    · exact hKey ▸ Nat.lt_succ_self _
  · obtain ⟨b, hb, hb'⟩ := h.known ref href
    exact ⟨b, (hMem b).2 (.inl hb), hb'⟩
  · rcases (hMem b).1 hb with hb | rfl
    · exact h.each b hb
    · exact hEach
  · rcases (hMem b).1 hb with hOld | rfl
    · rcases (hMem b').1 hb' with hOld' | rfl
      · exact h.distinct b hOld b' hOld' hSome hSame
      · exact absurd hSame (hNew (hSame ▸ hSome) b hOld)
    · rcases (hMem b').1 hb' with hOld' | rfl
      · exact absurd hSame.symm (hNew hSome b' hOld')
      · rfl

omit [DecidableEq Ch] [DecidableEq T] [DecidableEq I] in
theorem Inv.countP_nextKey (h : Inv s) :
    s.refs.countP (·.2 = s.nextKey) = 0 := by
  refine List.countP_eq_zero.2 fun ref href hKey => ?_
  obtain ⟨bp, hbp, hEq⟩ := h.known ref href
  have hLt := h.fresh bp hbp
  rw [hEq, show ref.2 = s.nextKey by simpa using hKey] at hLt
  exact Nat.lt_irrefl _ hLt

omit [DecidableEq T] [DecidableEq I] in
theorem addBreakpoint_inv (c : Ch)
    (hRead : readIdAttribute attrs = some id) (hId : id ≠ [])
    (hOne : idCount attrs = 1) (h : Inv s) :
    ∃ s', addBreakpoint w c attrs id s = some s' ∧ Inv s' := by
  unfold addBreakpoint
  cases hFind : findBreakpoint id s with
  | none =>
    obtain ⟨bp, hbp⟩ : ∃ bp, (setBreakpointAttributes attrs
      { key := s.nextKey, bucket := some (id2bpHash id) }).2 = bp := ⟨_, rfl⟩
    have hKept := kept_setBreakpointAttributes attrs
      { key := s.nextKey, bucket := some (id2bpHash id) }
    have hStored : (setBreakpointAttributes attrs
        { key := s.nextKey, bucket := some (id2bpHash id) }).2.id = id :=
      setBreakpointAttributes_id hOne hRead (Nat.zero_le 1) fun hSome =>
        absurd hSome (by simp [idCount])
    rw [hbp] at hKept hStored
    have hLinked : Linked s.refs bp := by
      refine ⟨hStored ▸ hId, hStored ▸ hKept.bucket, ?_, ?_⟩
      · rw [← hbp]
        exact hOne
      · rw [hKept.clientCnt, hKept.key, h.countP_nextKey]
        rfl
    have hNew : bp.id ≠ [] → ∀ b ∈ s.breakpoints, b.id ≠ bp.id := by
      intro hSome b hb hSame
      have hNot := List.find?_eq_none.1 hFind b hb
      rcases h.each b hb with hB | hB
      · refine hNot (decide_eq_true ⟨?_, hSame.trans hStored⟩)
        rw [hB.bucket, hSame, hStored]
      · exact hSome (hSame.symm.trans hB.id)
    rw [hbp]
    exact addRef_inv w c 0 (h.create hKept.key (.inl hLinked) hNew) (by simp) hLinked
  | some bp =>
    obtain ⟨hbp, -, hSame⟩ := findBreakpoint_eq_some hFind
    have hLinked := h.linked_of_find hFind
    have hKept := kept_setBreakpointAttributes attrs bp
    have hStored := setBreakpointAttributes_id hOne hRead hLinked.named.le fun _ => hSame
    have hLinked' : Linked s.refs (setBreakpointAttributes attrs bp).2 := by
      refine ⟨hStored ▸ hId, ?_, hOne, ?_⟩
      · rw [hKept.bucket, hLinked.bucket, hStored, hSame]
      · rw [hKept.clientCnt, hKept.key, hLinked.cnt]
    exact addRef_inv w c _ (h.setBp hbp hKept.key (hStored.trans hSame.symm) (.inl hLinked'))
      (mem_setBp hbp hKept.key) hLinked'

omit [DecidableEq T] [DecidableEq I] in
theorem addBreakpoints_inv (c : Ch) {list : List (List BreakpointAttribute)}
    (hOne : ∀ attrs ∈ list, OneId attrs) (h : Inv s) :
    ∃ s', addBreakpoints w c list s = some s' ∧ Inv s' := by
  induction list generalizing s with
  | nil => exact ⟨s, rfl, h⟩
  | cons attrs list ih =>
    have hAttrs := hOne attrs List.mem_cons_self
    unfold OneId at hAttrs
    rw [addBreakpoints]
    cases hRead : readIdAttribute attrs with
    | none => exact ⟨s, rfl, h⟩
    | some id =>
      rw [hRead] at hAttrs
      obtain ⟨s₁, hEq, h₁⟩ := addBreakpoint_inv w c hRead hAttrs.1 hAttrs.2 h
      dsimp only
      rw [hEq]
      exact ih (fun attrs hIn => hOne attrs (List.mem_cons_of_mem _ hIn)) h₁

theorem mapM_id {bps : List BreakpointInfo} (h : ∀ bp ∈ bps, bp.id ≠ []) :
    (bps.mapM fun bp => if bp.id = [] then none else some bp.id) =
      some (bps.map BreakpointInfo.id) := by
  induction bps with
  | nil => rfl
  | cons bp bps ih =>
    rw [List.mapM_cons, if_neg (h bp List.mem_cons_self),
      ih fun b hb => h b (List.mem_cons_of_mem _ hb)]
    rfl

omit [DecidableEq Ch] [DecidableEq T] [DecidableEq I] in
theorem getIds_eq (h : Inv s) :
    getIds s = some ((s.breakpoints.filter fun bp => s.linkClients bp.key ≠ []).map
      BreakpointInfo.id) := by
  refine mapM_id fun bp hbp => ?_
  obtain ⟨hMem, hClients⟩ := List.mem_filter.1 hbp
  rcases h.each bp hMem with hLinked | hOwn
  · exact hLinked.id
  · exact absurd (linkClients_eq_nil.2 hOwn.refs) (by simpa using hClients)

omit [DecidableEq T] [DecidableEq I] in
theorem commandSet_inv (c : Ch) {list : List (List BreakpointAttribute)}
    (hOne : ∀ attrs ∈ list, OneId attrs) (h : Inv s) :
    ∃ s', commandSet w c list s = some s' ∧ Inv s' := by
  obtain ⟨s₁, hEq, h₁⟩ := deleteBreakpointRefs_inv w c h
  unfold commandSet
  rw [hEq, Option.bind_some, getIds_eq h₁]
  exact addBreakpoints_inv w c hOne h₁

omit [DecidableEq T] [DecidableEq I] [DecidableEq Ch] in
/-- The flag and its attribute are set. -/
theorem setEnabled_inv (enabled : Bool) (value id : List UInt8)
    (h : Inv s) :
    ∃ s', setEnabled w enabled value id s = some s' ∧ Inv s' := by
  unfold setEnabled
  cases hFind : findBreakpoint (cString id) s with
  | none => exact ⟨s, rfl, h⟩
  | some bp =>
    obtain ⟨hbp, -, -⟩ := findBreakpoint_eq_some hFind
    have hLinked := h.linked_of_find hFind
    dsimp only
    split
    · have hNamed : idCount (setBreakpointAttribute breakpointEnabled value bp.attrs) = 1 :=
        (idCount_setBreakpointAttribute (by decide) value bp.attrs).trans hLinked.named
      have hInv : Inv (s.setBp { bp with
          enabled := enabled
          attrs := setBreakpointAttribute breakpointEnabled value bp.attrs }) :=
        h.setBp hbp rfl rfl (.inl { hLinked with named := hNamed })
      exact ⟨_, if_neg hLinked.id, (hInv.replantBreakpoint w _).emit _⟩
    · exact ⟨s, rfl, h⟩

omit [DecidableEq T] [DecidableEq I] [DecidableEq Ch] in
theorem setAllEnabled_inv (enabled : Bool) (value : List UInt8)
    (ids : List (List UInt8)) (h : Inv s) :
    ∃ s', setAllEnabled w enabled value ids s = some s' ∧ Inv s' := by
  induction ids generalizing s with
  | nil => exact ⟨s, rfl, h⟩
  | cons id ids ih =>
    obtain ⟨s₁, hEq, h₁⟩ := setEnabled_inv w enabled value id h
    rw [setAllEnabled, hEq]
    exact ih h₁

omit [DecidableEq T] [DecidableEq I] in
theorem commandRemove_inv (c : Ch) (ids : List (List UInt8))
    (h : Inv s) :
    ∃ s', commandRemove w c ids s = some s' ∧ Inv s' := by
  induction ids generalizing s with
  | nil => exact ⟨s, rfl, h⟩
  | cons id ids ih =>
    unfold commandRemove
    split
    · exact ih h
    · rename_i bp _
      split
      · rename_i hClient
        obtain ⟨s₁, hEq, h₁, -⟩ := removeRef_inv w h (mem_linkClients.1 hClient)
        rw [hEq]
        exact ih h₁
      · exact ih h

/-! ## Steps -/

omit [DecidableEq T] [DecidableEq I] [DecidableEq Ch] in
theorem createEventpoint_inv
    (hNone : idCount attrs = 0) (h : Inv s) :
    Inv (createEventpoint w attrs s) := by
  have hKept := kept_setBreakpointAttributes attrs
    { key := s.nextKey, bucket := none, clientCnt := 1 }
  have hId : (setBreakpointAttributes attrs
      { key := s.nextKey, bucket := none, clientCnt := 1 }).2.id = [] :=
    (setBreakpointAttributes_id_of_none hNone rfl).trans rfl
  refine Inv.replantBreakpoint (h.create hKept.key (.inr ⟨hId, hKept.bucket, ?_⟩)
    fun hSome => absurd hId hSome) w _
  rw [hKept.key]
  exact h.countP_nextKey

omit [DecidableEq T] [DecidableEq I] [DecidableEq Ch] in
theorem destroyEventpoint_inv (h : Inv s)
    (hFind : s.bp? key = some bp) (hBucket : bp.bucket = none)
    (hCnt : bp.clientCnt = 1) : ∃ s', destroyEventpoint w key s = some s' ∧ Inv s' := by
  obtain ⟨hbp, -⟩ := mem_of_bp? hFind
  have hOwn : Own s.refs bp := by
    refine (h.each bp hbp).resolve_left fun hLinked => ?_
    rw [hLinked.bucket] at hBucket
    cases hBucket
  unfold destroyEventpoint
  rw [hFind, Option.bind_some, if_neg (by simp [hOwn.id, hCnt, linkClients_eq_nil.2 hOwn.refs])]
  have hInv : Inv (s.setBp { bp with clientCnt := 0 }) :=
    h.setBp hbp rfl rfl (.inr { hOwn with })
  exact ⟨_, rfl, hInv.replantBreakpoint w _⟩

omit [DecidableEq Ch] [DecidableEq T] [DecidableEq I] in
theorem markChanged_inv (keys : List Nat) (h : Inv s) :
    Inv (markChanged keys s) := by
  have hOld (b : BreakpointInfo) (hb : b ∈ (markChanged keys s).breakpoints) :
      ∃ a ∈ s.breakpoints, b =
        { a with statusChanged := a.statusChanged || decide (a.key ∈ keys) } := by
    obtain ⟨a, ha, rfl⟩ := List.mem_map.1 hb
    exact ⟨a, ha, rfl⟩
  refine { h with
    keys := ?_
    fresh := fun b hb => ?_
    known := fun ref href => ?_
    each := fun b hb => ?_
    distinct := fun b hb b' hb' hSome hSame => ?_ }
  · rw [markChanged, List.map_map]
    exact h.keys
  · obtain ⟨a, ha, rfl⟩ := hOld b hb
    exact h.fresh a ha
  · obtain ⟨a, ha, hKey⟩ := h.known ref href
    exact ⟨_, List.mem_map_of_mem ha, hKey⟩
  · obtain ⟨a, ha, rfl⟩ := hOld b hb
    exact (h.each a ha).imp (fun hLinked => { hLinked with }) fun hOwn => { hOwn with }
  · obtain ⟨a, ha, rfl⟩ := hOld b hb
    obtain ⟨a', ha', rfl⟩ := hOld b' hb'
    exact h.distinct a ha a' ha' hSome hSame

omit [DecidableEq Ch] [DecidableEq T] [DecidableEq I] in
theorem nodup_refsOf (h : Inv s) (keys : List Nat) :
    (s.refsOf keys).Nodup := by
  refine List.nodup_flatMap.2 ⟨fun key _ => h.refs.filter _, ?_⟩
  refine (List.nodup_dedup keys).imp fun {a b} hNe => ?_
  rintro ref hA hB
  have hA' : ref.2 = a := by simpa using (List.mem_filter.1 hA).2
  have hB' : ref.2 = b := by simpa using (List.mem_filter.1 hB).2
  exact hNe (hA'.symm.trans hB')

omit [DecidableEq Ch] [DecidableEq G] [DecidableEq T] [DecidableEq I] in
theorem mem_refsOf {keys : List Nat}
    (href : ref ∈ s.refsOf keys) : ref ∈ s.refs := by
  obtain ⟨key, -, hIn⟩ := List.mem_flatMap.1 href
  exact (List.mem_filter.1 hIn).1

/-- An event that was posted, a client that waits; what the agent does with breakpoints of its
own, and a status that is reported when a context has stopped. -/
def Enabled (s : State Ch G T I) : Event Ch G T I → Prop
  | .createEventpoint _ attrs => idCount attrs = 0
  | .destroyEventpoint _ key =>
    (s.bp? key).map (fun bp => (bp.bucket, bp.clientCnt)) = some (none, 1)
  | .start _ => s.rep.events ≠ []
  | .client _ r => r.g ∈ s.rep.clients
  | .notify key => (s.bp? key).isSome = true ∧ s.rep.generationDone = s.rep.generationPosted
  | _ => True

instance (s : State Ch G T I) (e : Event Ch G T I) : Decidable (Enabled s e) := by
  unfold Enabled
  split <;> infer_instance

/-- Every attribute object that is received names one ID. -/
def Named : Event Ch G T I → Prop
  | .set _ _ list => ∀ attrs ∈ list, OneId attrs
  | .add _ _ attrs => OneId attrs
  | _ => True

instance (e : Event Ch G T I) : Decidable (Named e) := by
  unfold Named
  split <;> infer_instance

omit [DecidableEq Ch] in
theorem replant_inv (h : Inv s) {e : Replanting.Event G T Nat I}
    (he : Replanting.Enabled s.rep e) : ∃ s', replant e s = some s' ∧ Inv s' := by
  obtain ⟨t, hFollows⟩ := h.rep
  obtain ⟨rep', t', hEq, h'⟩ := Replanting.step_follows hFollows he
  exact ⟨{ s with rep := rep' }, by rw [replant, hEq]; rfl, { h with rep := ⟨t', h'⟩ }⟩

/-- A run of a client: temporary breakpoints lose their clients, and everybody is notified
when the generations have caught up. -/
theorem runClient_inv {r : ClientRun G T I} (h : Inv s)
    (hg : r.g ∈ s.rep.clients) : ∃ s', runClient w r s = some s' ∧ Inv s' := by
  unfold runClient
  dsimp only
  obtain ⟨s₁, hState, h₁, hRep₁⟩ : ∃ s₁, (if r.turn.outcome = .waits then markChanged r.changed s
      else evaluateLocations r.g (s.rep.req r.g).locActive r.links (markChanged r.changed s)) =
        s₁ ∧ Inv s₁ ∧ s₁.rep = s.rep := by
    have hInv := markChanged_inv r.changed h
    split
    · exact ⟨_, rfl, hInv, rfl⟩
    · exact ⟨_, rfl, { hInv with }, rfl⟩
  rw [hState]
  obtain ⟨posts, s₂, hEq₂, h₂, hRep₂⟩ : ∃ posts s₂, removeTemporary w
      (if r.turn.outcome = .exits ∧ s.rep.cacheEnterCnt = 1 then s₁.refsOf r.temporary else [])
      s₁ = some (posts, s₂) ∧ Inv s₂ ∧ s₂.rep = s.rep := by
    have hNodup : (if r.turn.outcome = .exits ∧ s.rep.cacheEnterCnt = 1 then
        s₁.refsOf r.temporary else []).Nodup := by
      split
      · exact nodup_refsOf h₁ _
      · exact List.nodup_nil
    have hRefs : ∀ ref ∈ (if r.turn.outcome = .exits ∧ s.rep.cacheEnterCnt = 1 then
        s₁.refsOf r.temporary else []), ref ∈ s₁.refs := by
      intro ref href
      split at href
      · exact mem_refsOf href
      · cases href
    obtain ⟨posts, s₂, hEq, h₂, hRep⟩ := removeTemporary_inv w h₁ hNodup hRefs
    exact ⟨posts, s₂, hEq, h₂, hRep.trans hRep₁⟩
  rw [hEq₂, Option.bind_some]
  obtain ⟨t, hFollows⟩ := h.rep
  have hEnabled : Replanting.Enabled s.rep
      (.rerun r.g { r.turn with callbacks := r.turn.callbacks ++ posts }) := hg
  obtain ⟨rep', t', hStep, h'⟩ := Replanting.step_follows hFollows hEnabled
  have hDone : rep'.generationDone ≠ s.rep.generationDone →
      rep'.generationDone = rep'.generationPosted := by
    simp only [Replanting.step, if_pos hg] at hStep
    exact (Replanting.replantClient_done hStep).resolve_left
  rw [hStep, Option.bind_some]
  obtain ⟨s₃, hState₃, h₃⟩ : ∃ s₃, ({ (if (r.turn.outcome = .exits ∧ s.rep.cacheEnterCnt = 1) ∧
      s.rep.posted = [] ∧ r.turn.posts = [] ∧ r.turn.callbacks ++ posts = [] then
        flushInstructions r.exiting r.canonical s₂ else s₂) with rep := rep' } :
        State Ch G T I) = s₃ ∧ Inv s₃ ∧ s₃.rep = rep' := by
    split
    · exact ⟨_, rfl, { h₂ with rep := ⟨t', h'⟩ }, rfl⟩
    · exact ⟨_, rfl, { h₂ with rep := ⟨t', h'⟩ }, rfl⟩
  rw [hState₃]
  split
  · rename_i hChanged
    exact doneReplantingBreakpoints_inv h₃.1 (h₃.2.symm ▸ hDone hChanged)
  · exact ⟨s₃, rfl, h₃.1⟩

/-- No assertion fails in a step, and the invariant is kept. -/
theorem step_inv (h : Inv s) {e : Event Ch G T I} (he : Enabled s e)
    (hNamed : Named e) : ∃ s', step s e = some s' ∧ Inv s' := by
  match e, he, hNamed with
  | .set w c list, _, hNamed => exact commandSet_inv w c hNamed h
  | .add w c attrs, _, hNamed =>
    exact addBreakpoints_inv w c (fun a ha => List.mem_singleton.1 ha ▸ hNamed) h
  | .enable w ids, _, _ => exact setAllEnabled_inv w _ _ ids h
  | .disable w ids, _, _ => exact setAllEnabled_inv w _ _ ids h
  | .remove w c ids, _, _ => exact commandRemove_inv w c ids h
  | .getIds, _, _ => exact ⟨s, by rw [step, getIds_eq h]; rfl, h⟩
  | .closed w c, _, _ => exact deleteBreakpointRefs_inv w c h
  | .createEventpoint w attrs, he, _ => exact ⟨_, rfl, createEventpoint_inv w he h⟩
  | .destroyEventpoint w key, he, _ =>
    obtain ⟨bp, hFind, hBp⟩ := Option.map_eq_some_iff.1 he
    obtain ⟨hBucket, hCnt⟩ := Prod.mk.inj hBp
    exact destroyEventpoint_inv w h hFind hBucket hCnt
  | .location g bp, _, _ => exact replant_inv h trivial
  | .exited g posted, _, _ =>
    refine ⟨_, rfl, { h with rep := ?_ }⟩
    unfold contextExited
    split
    · exact follows_postLocations [(g, none)] h.rep
    · exact h.rep
  | .stop world ctx g hits callbacks, _, _ => exact replant_inv h trivial
  | .start world, he, _ => exact replant_inv h he
  | .client w r, he, _ => exact runClient_inv w h he
  | .changed keys, _, _ => exact ⟨_, rfl, markChanged_inv keys h⟩
  | .notify key, he, _ =>
    obtain ⟨bp, hFind⟩ := Option.isSome_iff_exists.1 he.1
    obtain ⟨hbp, -⟩ := mem_of_bp? hFind
    obtain ⟨s', hEq, h', -⟩ := notifyBreakpointStatus_inv h hbp he.2
    exact ⟨s', by rw [step, hFind]; exact hEq, h'⟩

/-! ## Runs -/

/-- The breakpoints of clients: those that are linked in `id2bp` when they are created. -/
structure Identified (s : State Ch G T I) : Prop where
  id : ∀ bp ∈ s.breakpoints, bp.bucket.isSome = true → bp.id ≠ []
  bucket : ∀ bp ∈ s.breakpoints, bp.bucket.isSome = true → bp.bucket = some (id2bpHash bp.id)
  distinct : ((s.breakpoints.filter (·.bucket.isSome)).map BreakpointInfo.id).Nodup
  clients : ∀ bp ∈ s.breakpoints, bp.bucket.isSome = true →
    bp.clientCnt = (s.linkClients bp.key).length ∧ (s.linkClients bp.key).Nodup

omit [DecidableEq Ch] [DecidableEq T] [DecidableEq I] in
theorem Inv.identified (h : Inv s) : Identified s := by
  have hLinked (bp : BreakpointInfo) (hbp : bp ∈ s.breakpoints)
      (hSome : bp.bucket.isSome = true) : Linked s.refs bp := by
    refine (h.each bp hbp).resolve_right fun hOwn => ?_
    simp [hOwn.bucket] at hSome
  refine {
    id := fun bp hbp hSome => (hLinked bp hbp hSome).id
    bucket := fun bp hbp hSome => (hLinked bp hbp hSome).bucket
    distinct := ?_
    clients := fun bp hbp hSome => ⟨?_, ?_⟩ }
  · refine List.Nodup.map_on (fun a ha b hb hSame => ?_) (h.keys.of_map.filter _)
    obtain ⟨hA, hSomeA⟩ := List.mem_filter.1 ha
    obtain ⟨hB, -⟩ := List.mem_filter.1 hb
    exact eq_of_key h.keys hA hB (h.distinct a hA b hB (hLinked a hA hSomeA).id hSame)
  · rw [length_linkClients]
    exact (hLinked bp hbp hSome).cnt
  · refine List.Nodup.map_on (fun a ha b hb hSame => ?_) (h.refs.filter _)
    have hA : a.2 = bp.key := by simpa using (List.mem_filter.1 ha).2
    have hB : b.2 = bp.key := by simpa using (List.mem_filter.1 hb).2
    exact Prod.ext hSame (hA.trans hB.symm)

/-- The identity of breakpoints: in every run in which no attribute object names two IDs or an
empty one, no assertion fails, and every breakpoint of a client has a non-empty identifier of
its own, is linked in the bucket of that, and counts the channels that refer to it. -/
theorem breakpoint_identity (es : List (Event Ch G T I))
    (hEs : Meets step (fun s e => Enabled s e ∧ Named e) init es) :
    ∃ s, run step init es = some s ∧ Identified s := by
  have hStep (s : State Ch G T I) (e : Event Ch G T I) (h : Inv s)
      (he : Enabled s e ∧ Named e) : ∃ s', step s e = some s' ∧ Inv s' := step_inv h he.1 he.2
  obtain ⟨s, hRun, h⟩ := run_total hStep init_inv hEs
  exact ⟨s, hRun, h.identified⟩

/-- No context is debugged. -/
def nowhere : Contexts Nat := ⟨fun _ => [], fun _ => false⟩

/-- A value of the ID attribute. -/
def named (value : List UInt8) : BreakpointAttribute := ⟨breakpointId, value⟩

/-- Two channels add the breakpoint `A`, which is disabled, removed by both and added again. -/
def sharedRun : List (Event Nat Nat Nat Nat) :=
  [.add nowhere 1 [named [34, 65, 34], ⟨breakpointEnabled, [116, 114, 117, 101]⟩],
    .set nowhere 2 [[named [34, 65, 34]], [named [34, 66, 34]]], .disable nowhere [[65, 0]],
    .remove nowhere 1 [[65, 0]], .getIds, .closed nowhere 2, .add nowhere 2 [named [34, 65, 34]]]

theorem breakpoint_identity_shared :
    ∃ s, run step init sharedRun = some s ∧ Identified s :=
  breakpoint_identity sharedRun (by decide)

/-- An empty ID, two different ones, and the same one twice, then once. -/
theorem identity_lost :
    run step (init : State Nat Nat Nat Nat) [.add nowhere 1 [named [34, 34]]] = none ∧
    (∃ s, run step (init : State Nat Nat Nat Nat)
        [.add nowhere 1 [named [34, 65, 34], named [34, 66, 34]],
          .add nowhere 1 [named [34, 66, 34]]] = some s ∧ ¬ Identified s) ∧
    run step (init : State Nat Nat Nat Nat)
        [.add nowhere 1 [named [34, 65, 34], named [34, 65, 34]],
          .add nowhere 1 [named [34, 65, 34]]] = none := by
  refine ⟨by decide, ?_, by decide⟩
  have hRun : (run step (init : State Nat Nat Nat Nat)
      [.add nowhere 1 [named [34, 65, 34], named [34, 66, 34]],
        .add nowhere 1 [named [34, 66, 34]]]).any (fun s =>
      !decide ((s.breakpoints.filter (·.bucket.isSome)).map BreakpointInfo.id).Nodup) = true := by
    decide
  obtain ⟨s, hSome, hTwice⟩ := (Option.any_eq_true _ _).1 hRun
  refine ⟨s, hSome, fun h => ?_⟩
  simp [h.distinct] at hTwice

end TcfAgent.BreakpointStore

import TcfAgent.Services.ContextQueryMatch

/-!
# Ill-formed context queries

When `parse_context_query` fails it leaves what it has published so far, and no part at all is
what it leaves for the empty query, which selects everything.

Main results:

* `parseLoop_attrs`  — what is published stays published;
* `exists_selected`  — whatever parts are left, some context is selected by them;
* `nothing_iff`      — which ill-formed queries select nothing.
-/

namespace TcfAgent.ContextQuery

open TcfAgent.JsonText (Text isDigit ascii)

/-! ## What a failure leaves -/

section

variable {absPath : Bool} {n : Nat} {attrs : List (List Attribute)} {attr : List Attribute}
  {q path : Text} {r : Query × Option SyntaxError}

/-- What is published stays published. -/
theorem parseLoop_attrs (h : parseLoop absPath n attrs attr q = some r) :
    attrs <:+ r.1.attrs := by
  induction n generalizing attrs attr q with
  | zero =>
    cases q with
    | nil =>
      cases attr with
      | nil => simp [parseLoop] at h
      | cons a attr =>
        rw [parseLoop_end] at h
        cases h
        exact List.suffix_cons _ _
    | cons c q => cases attr <;> simp [parseLoop] at h
  | succ n ih =>
    cases q with
    | nil =>
      cases attr with
      | nil => simp [parseLoop] at h
      | cons a attr =>
        rw [parseLoop_end] at h
        cases h
        exact List.suffix_cons _ _
    | cons c q =>
      rw [parseLoop.eq_def] at h
      simp only at h
      split at h
      · cases h
        exact List.suffix_rfl
      · split at h
        · cases h
          exact List.suffix_cons _ _
        · exact (List.suffix_cons _ _).trans (ih h)
      · split at h
        · cases h
          exact List.suffix_rfl
        · exact ih h
      · exact ih h

theorem Items.publish_ne_nil (items : Items) : items.publish attrs attr ≠ [] := by
  induction items generalizing attrs attr with
  | last i => exact List.cons_ne_nil _ _
  | more i sep items ih => cases sep <;> exact ih

/-- A part that is complete is published. -/
theorem HasPart.published (hPart : HasPart path) (h : parseLoop absPath n [] [] path = some r) :
    r.1.attrs ≠ [] := by
  obtain ⟨part, rest, -, hValid, hPlain, rfl⟩ := hPart
  have hLoop := parseLoop_mono (Nat.le_add_left n part.count) h
  rw [parseLoop_items part hValid hPlain rfl, resume] at hLoop
  have hNe : part.publish [] [] ≠ [] := part.publish_ne_nil
  split at hLoop
  · cases hLoop
    exact hNe
  · intro hNil
    have hSuffix := parseLoop_attrs hLoop
    rw [hNil, List.suffix_nil] at hSuffix
    exact hNe hSuffix

end

/-! ## Some context is selected -/

section

variable {absPath : Bool} {attrs : List (List Attribute)}

/-- Comparators that let everything pass. -/
def lenient : List (Comparator Unit) :=
  [⟨ascii "Name", fun _ _ _ => true⟩, ⟨defaultComparator, fun _ _ _ => true⟩]

theorem matchAttribute_lenient (c : Context Unit) (key val : Text) :
    matchAttribute lenient c key val = true := by
  unfold matchAttribute
  split
  · next d hFind =>
    have hMem := List.mem_of_find?_eq_some hFind
    simp only [lenient, List.mem_cons, List.not_mem_nil, or_false] at hMem
    rcases hMem with rfl | rfl <;> rfl
  · simp [lenient]

theorem matchAttributes_lenient (c : Context Unit) (attr : List Attribute) :
    matchAttributes lenient c attr = true := by
  rw [matchAttributes_iff]
  intro a ha
  unfold Attribute.Says
  split
  · exact matchAttribute_lenient c _ _
  · exact .inr (matchAttribute_lenient c _ _)

/-- A context with so many others above it. -/
def deep : Nat → Context Unit
  | 0 => .root ⟨[], none, ()⟩
  | n + 1 => .child ⟨[], none, ()⟩ (deep n)

theorem matchAll_deep (hNe : attrs ≠ []) :
    matchAll lenient absPath attrs (deep (attrs.length - 1)) = true := by
  induction attrs with
  | nil => exact absurd rfl hNe
  | cons attr attrs ih =>
    by_cases hNil : attrs = []
    · subst hNil
      by_cases hAny : isAnyPath attr = true
      · exact matchAll_any_last hAny
      · rw [matchAll_one_last (Bool.eq_false_iff.2 hAny)]
        exact ⟨matchAttributes_lenient _ attr, fun _ => rfl⟩
    · obtain ⟨m, hm⟩ : ∃ m, attrs.length = m + 1 :=
        Nat.exists_eq_succ_of_ne_zero (mt List.length_eq_zero_iff.1 hNil)
      have hRest := ih hNil
      rw [hm, Nat.add_sub_cancel] at hRest
      rw [List.length_cons, hm, Nat.add_sub_cancel]
      by_cases hAny : isAnyPath attr = true
      · rw [matchAll_any hAny hNil, anyUp_iff]
        exact ⟨[deep (m + 1)], deep m, rfl, hRest⟩
      · rw [matchAll_one (Bool.eq_false_iff.2 hAny) hNil]
        exact ⟨matchAttributes_lenient _ attr, deep m, rfl, hRest⟩

/-- Whatever parts are left, some context is selected by them. -/
theorem exists_selected (q : Query) (hNe : q.attrs ≠ []) :
    ∃ (comparators : List (Comparator Unit)) (c : Context Unit),
      runContextQuery comparators c q = true :=
  ⟨lenient, deep (q.attrs.length - 1), by rw [runContextQuery_eq]; exact matchAll_deep hNe⟩

end

/-! ## Which failures select nothing -/

/-- The parser refuses the text. -/
def Fails (q : Text) : Prop := ∃ r e, Parses q (r, some e)

/-- Neither `context_query`, whatever query came before, nor a later `run_context_query` reports a
match. -/
structure SelectsNothing (q : Text) : Prop where
  query : ∀ (ε : Type) fuel before (comparators : List (Comparator ε)) c b,
    contextQuery fuel before comparators c (some q) = some b → b = false
  later : ∀ (ε : Type) (comparators : List (Comparator ε)) c r e,
    Parses q (r, some e) → runContextQuery comparators c r = false

section

variable {q path : Text} {r : Query} {e : SyntaxError}

theorem selectsNothing_of (h : Parses q (r, some e)) (hNil : r.attrs = [])
    (hAbs : r.absPath = true) : SelectsNothing q := by
  have hRun : ∀ (ε : Type) (comparators : List (Comparator ε)) c,
      runContextQuery comparators c r = false := by
    intro ε comparators c
    rw [runContextQuery_eq, hNil, matchAll, hAbs]
    rfl
  refine ⟨?_, ?_⟩
  · intro ε fuel before comparators c b hQuery
    obtain ⟨r', hParse, rfl⟩ := Option.map_eq_some_iff.1 hQuery
    have hParses : Parses q r' := ⟨fuel, fun before' => hParse⟩
    obtain rfl := h.unique hParses
    exact hRun ε comparators c
  · intro ε comparators c r' e' hParses
    obtain ⟨rfl, -⟩ := Prod.mk.inj (h.unique hParses)
    exact hRun ε comparators c

theorem SelectsNothing.left (hNothing : SelectsNothing q) (h : Parses q (r, some e)) :
    r.attrs = [] ∧ r.absPath = true := by
  have hNil : r.attrs = [] := by
    by_contra hNe
    obtain ⟨comparators, c, hRun⟩ := exists_selected r hNe
    rw [hNothing.later Unit comparators c r e h] at hRun
    cases hRun
  have hRun := hNothing.later Unit lenient (deep 0) r e h
  rw [runContextQuery_eq, hNil, matchAll] at hRun
  exact ⟨hNil, by simpa using hRun⟩

/-- The text is a path from the root on, and its first part is not complete. -/
def RootOnly (q : Text) : Prop := ∃ path, q = 47 :: path ∧ ¬ HasPart path

theorem IsPath.rootOnly {absPath : Bool} (hPath : IsPath q absPath path) :
    RootOnly q ↔ absPath = true ∧ ¬ HasPart path := by
  obtain ⟨rfl, hRoot⟩ := hPath
  cases absPath with
  | true =>
    constructor
    · rintro ⟨path', hText, hPart⟩
      cases hText
      exact ⟨rfl, hPart⟩
    · rintro ⟨-, hPart⟩
      exact ⟨path, rfl, hPart⟩
  | false =>
    constructor
    · rintro ⟨path', hText, hPart⟩
      have hHead := hRoot rfl
      rw [show path = 47 :: path' from hText] at hHead
      exact absurd rfl hHead
    · rintro ⟨hAbs, -⟩
      cases hAbs

theorem HasPart.start (hPart : HasPart path) : missing path = false := by
  obtain ⟨part, rest, -, -, -, rfl⟩ := hPart
  exact part.text_head _

/-- What a failure leaves, by where the error is. -/
theorem Parses.left_iff (h : Parses q (r, some e)) :
    r.attrs = [] ∧ r.absPath = true ↔ RootOnly q := by
  obtain ⟨fuel, hParse⟩ := h
  have hNe : q ≠ [] := by
    rintro rfl
    cases hParse ⟨[], false⟩
  obtain ⟨absPath, path, hPath, hEq⟩ := parseContextQuery_path hNe
  have hRead : parsePath fuel absPath path = some (r, some e) := by
    rw [← hEq fuel ⟨[], false⟩]
    exact hParse ⟨[], false⟩
  rw [hPath.rootOnly]
  unfold parsePath at hRead
  split at hRead
  · next hMissing =>
    cases hRead
    have hPart : ¬ HasPart path := by
      intro hPart
      rw [hPart.start] at hMissing
      cases hMissing
    simp [hPart]
  · next hStart =>
    have hLoop := parseLoop_mono (Nat.le_max_left fuel path.length) hRead
    obtain ⟨r', hLoop', hOut⟩ : ∃ r', parseLoop absPath (max fuel path.length) [] [] path =
        some r' ∧ Outcome absPath [] [] path r' :=
      parseLoop_sound (Nat.le_max_right fuel path.length) (Bool.eq_false_iff.2 hStart)
    obtain rfl := Option.some.inj (hLoop'.symm.trans hLoop)
    cases hOut with
    | refused =>
      have hPart : ¬ HasPart path := fun hPart => hPart.published hLoop rfl
      simp [hPart]
    | left parts e hPart =>
      have hNil : parts ≠ [] := hPart.published hLoop
      simp [hPart, hNil]

/-- An ill-formed query selects nothing exactly when it starts at the root and the error is in its
first part. -/
theorem nothing_iff (h : Fails q) : SelectsNothing q ↔ RootOnly q := by
  obtain ⟨r, e, hParses⟩ := h
  rw [← hParses.left_iff]
  constructor
  · intro hNothing
    exact hNothing.left hParses
  · rintro ⟨hNil, hAbs⟩
    exact selectsNothing_of hParses hNil hAbs

/-- `/=` -/
theorem nothing_iff_slash :
    Fails [47, 61] ∧ (SelectsNothing [47, 61] ↔ RootOnly [47, 61]) := by
  have hFails : Fails [47, 61] := ⟨⟨[], true⟩, .item, 0, fun before => rfl⟩
  exact ⟨hFails, nothing_iff hFails⟩

/-- `a/`, and a context `a` at the root. -/
theorem not_selectsNothing : ¬ ∀ q, Fails q → SelectsNothing q := by
  intro hAll
  have hParses : Parses [97, 47] (⟨[[⟨none, [97]⟩]], false⟩, some .item) :=
    ⟨1, fun before => rfl⟩
  have hNothing := hAll [97, 47] ⟨_, _, hParses⟩
  have hRun := hNothing.later Unit iniComparators (.root ⟨[97], none, ()⟩) _ _ hParses
  cases hRun

end

end TcfAgent.ContextQuery

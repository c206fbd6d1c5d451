import TcfAgent.Services.PathNames

/-!
# What becomes of the components of a file name

`canonic_path_map_file_name` said with components: the ones that are left are a stack, behind at
most two separators (`Shape`), and the letter of a drive is a capital.

Main results:

* `canonicLoop_eq` — what the loop leaves in the buffer;
* `canonic_eq`     — the canonic form is the text of a shape.
-/

namespace TcfAgent.PathNames

open TcfAgent.JsonText (Text)

/-! ## Components -/

/-- Without separators. -/
def Free (c : Text) : Prop := ∀ x ∈ c, isSeparator x = false

theorem components_append {c s : Text} {d : UInt8} (hFree : Free c) (hSep : isSeparator d = true) :
    components (c ++ d :: s) = c :: components s := by
  induction c with
  | nil => simp [components, hSep]
  | cons x c ih =>
    have hRest := ih fun y hy => hFree y (List.mem_cons_of_mem _ hy)
    rw [List.cons_append, components, hFree x List.mem_cons_self, hRest]
    rfl

theorem components_free {c : Text} (hFree : Free c) : components c = [c] := by
  induction c with
  | nil => rfl
  | cons x c ih =>
    rw [components, hFree x List.mem_cons_self, ih fun y hy => hFree y (List.mem_cons_of_mem _ hy)]
    rfl

/-- A name is a component, or a component, a separator and a name. -/
theorem split_name (s : Text) :
    Free s ∨ ∃ c d s', s = c ++ d :: s' ∧ Free c ∧ isSeparator d = true := by
  induction s with
  | nil => exact .inl fun x hx => absurd hx List.not_mem_nil
  | cons x s ih =>
    by_cases hSep : isSeparator x = true
    · exact .inr ⟨[], x, s, rfl, fun y hy => absurd hy List.not_mem_nil, hSep⟩
    · have hx : isSeparator x = false := Bool.eq_false_of_not_eq_true hSep
      rcases ih with hFree | ⟨c, d, s', rfl, hFree, hd⟩
      · left
        intro y hy
        rcases List.mem_cons.1 hy with rfl | hy
        · exact hx
        · exact hFree y hy
      · refine .inr ⟨x :: c, d, s', rfl, ?_, hd⟩
        intro y hy
        rcases List.mem_cons.1 hy with rfl | hy
        · exact hx
        · exact hFree y hy

theorem components_ne_nil (s : Text) : components s ≠ [] := by
  rcases split_name s with hFree | ⟨c, d, s', rfl, hFree, hSep⟩
  · rw [components_free hFree]
    exact List.cons_ne_nil _ _
  · rw [components_append hFree hSep]
    exact List.cons_ne_nil _ _

theorem components_single {s c : Text} (h : components s = [c]) : s = c ∧ Free c := by
  rcases split_name s with hFree | ⟨c', d, s', rfl, hFree, hSep⟩
  · rw [components_free hFree] at h
    obtain rfl := List.singleton_inj.1 h
    exact ⟨rfl, hFree⟩
  · rw [components_append hFree hSep] at h
    exact absurd (List.cons.inj h).2 (components_ne_nil s')

theorem components_cons {s c e : Text} {rest : List Text} (h : components s = c :: e :: rest) :
    ∃ d s', s = c ++ d :: s' ∧ Free c ∧ isSeparator d = true ∧ components s' = e :: rest := by
  rcases split_name s with hFree | ⟨c', d, s', rfl, hFree, hSep⟩
  · rw [components_free hFree] at h
    simp at h
  · rw [components_append hFree hSep] at h
    obtain ⟨rfl, hRest⟩ := List.cons.inj h
    exact ⟨d, s', rfl, hFree, hSep, hRest⟩

theorem free_of_mem {s c : Text} (h : c ∈ components s) : Free c := by
  induction hLength : s.length using Nat.strong_induction_on generalizing s with
  | _ n ih =>
    rcases split_name s with hFree | ⟨c', d, s', rfl, hFree, hSep⟩
    · rw [components_free hFree] at h
      rw [List.mem_singleton.1 h]
      exact hFree
    · rw [components_append hFree hSep] at h
      rcases List.mem_cons.1 h with rfl | h
      · exact hFree
      · exact ih s'.length (by simp at hLength; omega) h rfl

/-! ## Shapes -/

/-- One component further in a name by itself: `..` takes away the component before it, or stays. -/
def reduceStep (stack : List Text) (c : Text) : List Text :=
  if c = [] ∨ c = [46] then stack
  else if c = [46, 46] then
    match stack with
    | top :: below => if top = [46, 46] then c :: stack else below
    | [] => [c]
  else c :: stack

/-- What is left of components, the last one first. -/
def reduce (stack : List Text) (cs : List Text) : List Text := cs.foldl reduceStep stack

/-- Separators, and components that end with one. -/
def full (lead : Nat) : List Text → Text
  | [] => List.replicate lead 47
  | c :: stack => full lead stack ++ (c ++ [47])

/-- What is put into the buffer: separators, components with a separator each, and the last
component. -/
structure Shape where
  lead  : Nat
  stack : List Text
  tail  : Text

def Shape.text (sh : Shape) : Text := full sh.lead sh.stack ++ sh.tail

/-- An empty component puts a separator into the buffer that has at most one character, a separator,
unless the name ends there. -/
def leadStep (lead : Nat) (stack : List Text) (c : Text) (rest : List Text) : Nat :=
  if c = [] ∧ stack = [] ∧ (lead = 0 ∨ lead = 1 ∧ rest ≠ [[]]) then lead + 1 else lead

/-- A separator at the end of the name is left out behind a component that stays and does not end
with a colon. -/
def shape (lead : Nat) (stack : List Text) : List Text → Shape
  | [] => ⟨lead, stack, []⟩
  | [c] => ⟨lead, stack, c⟩
  | c :: d :: rest =>
    if d :: rest = [[]] ∧ reduceStep stack c = c :: stack ∧ c.getLast? ≠ some 58 then
      ⟨lead, stack, c⟩
    else shape (leadStep lead stack c (d :: rest)) (reduceStep stack c) (d :: rest)

/-- The first character as a capital, when it is the letter of a drive. -/
def capital : Text → Text
  | x :: 58 :: s => upper x :: 58 :: s
  | s => s

/-- Components that can be left. -/
def Clean (stack : List Text) : Prop := ∀ c ∈ stack, c ≠ [] ∧ c ≠ [46] ∧ Free c

section

variable {lead : Nat} {stack rest : List Text} {c s : Text} {x d : UInt8}

theorem Clean.reduceStep (hClean : Clean stack) (hFree : Free c) : Clean (reduceStep stack c) := by
  unfold PathNames.reduceStep
  split
  · exact hClean
  · rename_i hStays
    rw [not_or] at hStays
    have hPush : Clean (c :: stack) := List.forall_mem_cons.2 ⟨⟨hStays.1, hStays.2, hFree⟩, hClean⟩
    split
    · split
      · rename_i top below
        split
        · exact hPush
        · exact (List.forall_mem_cons.1 hClean).2
      · exact hPush
    · exact hPush

theorem full_append (hNe : full lead stack ≠ []) : ∃ t, full lead stack = t ++ [47] := by
  rcases stack with - | ⟨c, stack⟩
  · rcases lead with - | n
    · exact absurd rfl hNe
    · exact ⟨List.replicate n 47, List.replicate_succ'⟩
  · exact ⟨full lead stack ++ c, (List.append_assoc _ _ _).symm⟩

theorem full_eq_nil : full lead stack = [] ↔ lead = 0 ∧ stack = [] := by
  rcases stack with - | ⟨c, stack⟩
  · simp [full]
  · simp [full]

theorem capital_cons (hNot : s.head? ≠ some 58) : capital (x :: s) = x :: s := by
  rcases s with - | ⟨y, s⟩
  · rfl
  · have hy : y ≠ 58 := by simpa using hNot
    unfold capital
    split
    · rename_i h
      exact absurd (List.cons.inj (List.cons.inj h).2).1 hy
    · rfl

theorem capital_separator (s : Text) : capital (47 :: s) = 47 :: s := by
  by_cases h : s.head? = some 58
  · rcases s with - | ⟨y, s⟩
    · rfl
    · obtain rfl : y = 58 := by simpa using h
      rfl
  · exact capital_cons h

/-- Behind a separator nothing is changed. -/
theorem capital_append (t s : Text) : capital (t ++ [47] ++ s) = capital (t ++ [47]) ++ s := by
  rcases t with - | ⟨x, - | ⟨y, t⟩⟩
  · exact capital_separator s
  · show capital (x :: 47 :: s) = capital [x, 47] ++ s
    rw [capital_cons (by simp), capital_cons (by simp)]
    rfl
  · by_cases hy : y = 58
    · subst hy
      rfl
    · show capital (x :: y :: (t ++ [47] ++ s)) = capital (x :: y :: (t ++ [47])) ++ s
      rw [capital_cons (by simpa using hy), capital_cons (by simpa using hy)]
      rfl

theorem capital_concat (hFree : Free s) : capital (s ++ [47]) = capital s ++ [47] := by
  rcases s with - | ⟨x, - | ⟨y, s⟩⟩
  · rfl
  · show capital [x, 47] = capital [x] ++ [47]
    rw [capital_cons (by simp)]
    rfl
  · by_cases hy : y = 58
    · subst hy
      rfl
    · show capital (x :: y :: (s ++ [47])) = capital (x :: y :: s) ++ [47]
      rw [capital_cons (by simpa using hy), capital_cons (by simpa using hy)]
      rfl

/-! ## The buffer -/

/-- The buffer between two components. -/
def buffer (lead : Nat) (stack : List Text) : Text := (capital (full lead stack)).reverse

/-- A component as it is put into the buffer. -/
def mark (lead : Nat) (stack : List Text) (c : Text) : Text :=
  if full lead stack = [] then capital c else c

theorem capital_full (s : Text) :
    capital (full lead stack ++ s) = capital (full lead stack) ++ mark lead stack s := by
  unfold mark
  split
  · rename_i hNil
    rw [hNil]
    rfl
  · rename_i hNe
    obtain ⟨t, ht⟩ := full_append hNe
    rw [ht, capital_append]

theorem capital_eq_iff {t : Text} (hNot : t[1]? ≠ some 58) : capital c = t ↔ c = t := by
  rcases c with - | ⟨x, - | ⟨y, c⟩⟩
  · exact Iff.rfl
  · exact Iff.rfl
  · by_cases hy : y = 58
    · subst hy
      constructor
      · rintro rfl
        exact absurd rfl hNot
      · rintro rfl
        exact absurd rfl hNot
    · rw [capital_cons (by simpa using hy)]

theorem mark_eq_iff {t : Text} (hNot : t[1]? ≠ some 58) : mark lead stack c = t ↔ c = t := by
  unfold mark
  split
  · exact capital_eq_iff hNot
  · exact Iff.rfl

theorem capital_getLast : (capital c).getLast? = some 58 ↔ c.getLast? = some 58 := by
  rcases c with - | ⟨x, - | ⟨y, c⟩⟩
  · exact Iff.rfl
  · exact Iff.rfl
  · by_cases hy : y = 58
    · subst hy
      simp [capital, List.getLast?_cons_cons]
    · rw [capital_cons (by simpa using hy)]

theorem mark_getLast : (mark lead stack c).getLast? = some 58 ↔ c.getLast? = some 58 := by
  unfold mark
  split
  · exact capital_getLast
  · exact Iff.rfl

theorem isSeparator_upper (x : UInt8) : isSeparator (upper x) = isSeparator x := by
  unfold upper
  split
  · rename_i hLetter
    obtain ⟨hLow, hHigh⟩ := hLetter
    rw [UInt8.le_iff_toNat_le] at hLow hHigh
    have hLow : 97 ≤ x.toNat := hLow
    have hHigh : x.toNat ≤ 122 := hHigh
    have hLess : (x - 32).toNat = x.toNat - 32 := UInt8.toNat_sub_of_le x 32 (by
      rw [UInt8.le_iff_toNat_le]
      show 32 ≤ x.toNat
      omega)
    have hNe : ∀ y : UInt8, y.toNat = 47 ∨ y.toNat = 92 → x - 32 ≠ y ∧ x ≠ y := by
      intro y hy
      constructor
      · rintro rfl
        omega
      · rintro rfl
        omega
    have hSlash := hNe 47 (.inl rfl)
    have hBackslash := hNe 92 (.inr rfl)
    simp [isSeparator, hSlash, hBackslash]
  · rfl

theorem Free.capital (hFree : Free c) : Free (capital c) := by
  rcases c with - | ⟨x, - | ⟨y, c⟩⟩
  · exact hFree
  · exact hFree
  · by_cases hy : y = 58
    · subst hy
      refine List.forall_mem_cons.2 ⟨?_, fun z hz => hFree z (List.mem_cons_of_mem _ hz)⟩
      rw [isSeparator_upper]
      exact hFree x List.mem_cons_self
    · rw [capital_cons (by simpa using hy)]
      exact hFree

theorem Free.mark (hFree : Free c) : Free (mark lead stack c) := by
  unfold PathNames.mark
  split
  · exact hFree.capital
  · exact hFree

theorem buffer_cons (hFree : Free c) :
    buffer lead (c :: stack) = 47 :: ((mark lead stack c).reverse ++ buffer lead stack) := by
  have hMark : mark lead stack (c ++ [47]) = mark lead stack c ++ [47] := by
    unfold mark
    split
    · exact capital_concat hFree
    · rfl
  rw [buffer, full, capital_full, hMark, buffer]
  simp

theorem buffer_nil (lead : Nat) : buffer lead [] = List.replicate lead 47 := by
  have hCapital : capital (List.replicate lead 47) = List.replicate lead 47 := by
    rcases lead with - | n
    · rfl
    · rw [List.replicate_succ]
      exact capital_separator _
  rw [buffer, full, hCapital, List.reverse_replicate]

theorem head_buffer (hClean : Clean stack) :
    buffer lead stack = [] ∨ (buffer lead stack).head? = some 47 := by
  rcases stack with - | ⟨c, stack⟩
  · rw [buffer_nil]
    rcases lead with - | n
    · exact .inl rfl
    · exact .inr rfl
  · rw [buffer_cons (hClean c List.mem_cons_self).2.2]
    exact .inr rfl

theorem atStart_buffer (hClean : Clean stack) : atStart (buffer lead stack) = true := by
  rcases @head_buffer lead _ hClean with hNil | hHead
  · simp [atStart, hNil]
  · simp [atStart, hHead]

theorem buffer_eq_nil (hClean : Clean stack) : buffer lead stack = [] ↔ full lead stack = [] := by
  rw [full_eq_nil]
  rcases stack with - | ⟨c, stack⟩
  · rw [buffer_nil]
    simp
  · rw [buffer_cons (hClean c List.mem_cons_self).2.2]
    simp

theorem two_le_buffer (hClean : Clean stack) :
    2 ≤ (buffer lead stack).length ↔ stack ≠ [] ∨ 2 ≤ lead := by
  rcases stack with - | ⟨c, stack⟩
  · rw [buffer_nil]
    simp
  · obtain ⟨hSome, -, hFree⟩ := hClean c List.mem_cons_self
    have hMark : 0 < (mark lead stack c).length :=
      List.length_pos_of_ne_nil fun h => hSome ((mark_eq_iff (by simp)).1 h)
    rw [buffer_cons hFree]
    simp
    omega

theorem mem_free (hFree : Free c) (hx : x ∈ c) : x ≠ 47 ∧ x ≠ 92 := by
  have hNot := hFree x hx
  simpa [isSeparator] using hNot

/-- What `..` behind a separator does. -/
theorem dropComponent_buffer (hClean : Clean stack) (hSep : isSeparator d = true) :
    dropComponent (buffer lead stack) (46 :: d :: s) =
      if reduceStep stack [46, 46] = [46, 46] :: stack then none
      else some (buffer lead (reduceStep stack [46, 46])) := by
  rcases stack with - | ⟨c, stack⟩
  · have hStep : reduceStep [] [46, 46] = [[46, 46]] := rfl
    rw [if_pos hStep, buffer_nil]
    rcases lead with - | n
    · rfl
    · rw [List.replicate_succ, dropComponent]
      simp
  · obtain ⟨hSome, hDot, hFree⟩ := hClean c List.mem_cons_self
    have hRest : Clean stack := (List.forall_mem_cons.1 hClean).2
    have hMark : Free (mark lead stack c) := hFree.mark
    have hAll : ∀ y ∈ (mark lead stack c).reverse, decide (y ≠ 47) = true := fun y hy =>
      decide_eq_true (mem_free hMark (List.mem_reverse.1 hy)).1
    have hStop : (buffer lead stack).takeWhile (fun y => decide (y ≠ 47)) = [] ∧
        (buffer lead stack).dropWhile (fun y => decide (y ≠ 47)) = buffer lead stack := by
      rcases @head_buffer lead _ hRest with hNil | hHead
      · simp [hNil]
      · obtain ⟨t, ht⟩ := List.head?_eq_some_iff.1 hHead
        simp [ht]
    rw [buffer_cons hFree, dropComponent, List.takeWhile_append_of_pos hAll,
      List.dropWhile_append_of_pos hAll, hStop.1, hStop.2, List.append_nil, List.reverse_reverse]
    have hMarkNil : mark lead stack c ≠ [] := fun h => hSome ((mark_eq_iff (by simp)).1 h)
    have hMarkDot : mark lead stack c ≠ [46] := fun h => hDot ((mark_eq_iff (by simp)).1 h)
    by_cases hDots : c = [46, 46]
    · have hMarkDots : mark lead stack c = [46, 46] := (mark_eq_iff (by simp)).2 hDots
      rw [if_neg (by simp [hMarkDots]), if_pos (by simp [reduceStep, hDots])]
    · have hMarkDots : mark lead stack c ≠ [46, 46] := fun h => hDots ((mark_eq_iff (by simp)).1 h)
      have hStep : reduceStep (c :: stack) [46, 46] = stack := by simp [reduceStep, hDots]
      have hLess : stack ≠ [46, 46] :: c :: stack := by
        intro h
        have hLength := congrArg List.length h
        simp only [List.length_cons] at hLength
        omega
      rw [if_pos ⟨hSep, hMarkNil, hMarkDot, hMarkDots⟩, hStep, if_neg hLess]

/-! ## The loop -/

variable {out fnm : Text} {ch : UInt8}

theorem drive_small (h : ¬ 97 ≤ ch) : drive out ch fnm = ch := if_neg fun hAll => h hAll.2.1

/-- A character that is put into the buffer. -/
theorem loop_char (hSep : isSeparator ch = false)
    (hDot : ch = 46 → atStart out = true →
      fnm.head?.any isSeparator = false ∧ dropComponent out fnm = none) :
    canonicLoop 0 out (ch :: fnm) = canonicLoop 0 (drive out ch fnm :: out) fnm := by
  have hCh : ch ≠ 47 ∧ ch ≠ 92 := by simpa [isSeparator] using hSep
  rw [canonicLoop]
  simp only [hCh.2, if_false, hCh.1, false_and]
  split
  · rename_i hStart
    obtain ⟨rfl, hStart⟩ := hStart
    obtain ⟨hNext, hDrop⟩ := hDot rfl hStart
    have hPlain : drive out 46 fnm = 46 := drive_small (by decide)
    rw [hNext, hDrop, hPlain]
    rfl
  · rfl

/-- Characters behind one that is none of the separators. -/
theorem loop_inside (hx : x ≠ 47) (hFree : Free c) :
    canonicLoop 0 (x :: out) (c ++ fnm) = canonicLoop 0 (c.reverse ++ x :: out) fnm := by
  induction c generalizing x out with
  | nil => rfl
  | cons y c ih =>
    have hy := hFree y List.mem_cons_self
    have hDrive : drive (x :: out) y (c ++ fnm) = y := if_neg (by simp)
    rw [List.cons_append, loop_char hy (by simp [atStart, hx]), hDrive,
      ih (mem_free hFree List.mem_cons_self).1 fun z hz => hFree z (List.mem_cons_of_mem _ hz)]
    simp

/-- A component that stays. -/
theorem loop_component (hClean : Clean stack) (hFree : Free c) (hSome : c ≠ [])
    (hNext : ∀ y ∈ fnm.head?, isSeparator y = true)
    (hStays : fnm ≠ [] → c ≠ [46] ∧ (c = [46, 46] → reduceStep stack c = c :: stack)) :
    canonicLoop 0 (buffer lead stack) (c ++ fnm) =
      canonicLoop 0 ((mark lead stack c).reverse ++ buffer lead stack) fnm := by
  rcases c with - | ⟨y, c⟩
  · exact absurd rfl hSome
  have hy := hFree y List.mem_cons_self
  have hRest : Free c := fun z hz => hFree z (List.mem_cons_of_mem _ hz)
  have hDot : y = 46 → atStart (buffer lead stack) = true →
      (c ++ fnm).head?.any isSeparator = false ∧
        dropComponent (buffer lead stack) (c ++ fnm) = none := by
    rintro rfl -
    rcases c with - | ⟨z, c⟩
    · -- a dot by itself is at the end of the name
      have hEnd : fnm = [] := by
        by_contra hMore
        exact (hStays hMore).1 rfl
      subst hEnd
      refine ⟨rfl, ?_⟩
      unfold dropComponent
      split
      · rename_i h
        cases h
      · rfl
    · refine ⟨hRest z List.mem_cons_self, ?_⟩
      rcases c with - | ⟨w, c⟩
      · rcases fnm with - | ⟨d, fnm⟩
        · unfold dropComponent
          split
          · rename_i h
            cases h
          · rfl
        · by_cases hDots : z = 46
          · subst hDots
            have hPush := (hStays (List.cons_ne_nil _ _)).2 rfl
            show dropComponent (buffer lead stack) (46 :: d :: fnm) = none
            rw [dropComponent_buffer hClean (hNext d rfl), if_pos hPush]
          · unfold dropComponent
            split
            · rename_i h
              exact absurd (List.cons.inj h).1 hDots
            · rfl
      · have hw := hRest w (by simp)
        unfold dropComponent
        split
        · rename_i h
          obtain ⟨-, h⟩ := List.cons.inj h
          obtain ⟨rfl, -⟩ := List.cons.inj h
          simp [hw]
        · rfl
  have hDrive : drive (buffer lead stack) y (c ++ fnm) :: c = mark lead stack (y :: c) := by
    by_cases hNil : full lead stack = []
    · have hBuffer : buffer lead stack = [] := (buffer_eq_nil hClean).2 hNil
      rw [mark, if_pos hNil, hBuffer]
      rcases c with - | ⟨z, c⟩
      · have hHead : fnm.head? ≠ some 58 := by
          intro h
          have := hNext 58 h
          exact absurd this (by decide)
        simp [drive, hHead, capital]
      · by_cases hz : z = 58
        · subst hz
          simp [drive, capital, upper]
        · rw [capital_cons (by simpa using hz)]
          simp [drive, hz]
    · have hBuffer : buffer lead stack ≠ [] := fun h => hNil ((buffer_eq_nil hClean).1 h)
      rw [mark, if_neg hNil, drive, if_neg (by simp [hBuffer])]
  have hMark : Free (mark lead stack (y :: c)) := hFree.mark
  rw [← hDrive] at hMark
  rw [List.cons_append, loop_char hy hDot, loop_inside (mem_free hMark List.mem_cons_self).1 hRest,
    ← hDrive]
  simp

/-- The separator behind a component that stays. -/
theorem loop_separator (hSep : isSeparator d = true) (hx : x ≠ 47) :
    canonicLoop 0 (x :: out) (d :: fnm) =
      if fnm = [] ∧ x ≠ 58 then x :: out else canonicLoop 0 (47 :: x :: out) fnm := by
  have hSlash : (if d = 92 then 47 else d) = 47 := by
    unfold isSeparator at hSep
    split
    · rfl
    · rename_i hNot
      simpa [hNot] using hSep
  have hDrive : drive (x :: out) 47 fnm = 47 := drive_small (by decide)
  rw [canonicLoop]
  simp only [hSlash]
  simp [hx, hDrive]

/-- A separator at the beginning of a component. -/
theorem loop_empty (hClean : Clean stack) (hSep : isSeparator d = true) :
    canonicLoop 0 (buffer lead stack) (d :: fnm) =
      canonicLoop 0 (buffer (leadStep lead stack [] (components fnm)) stack) fnm := by
  have hSlash : (if d = 92 then 47 else d) = 47 := by
    unfold isSeparator at hSep
    split
    · rfl
    · rename_i hNot
      simpa [hNot] using hSep
  have hEnd : components fnm = [[]] ↔ fnm = [] := by
    constructor
    · intro h
      exact (components_single h).1
    · rintro rfl
      rfl
  have hDrive : ∀ out : Text, drive out 47 fnm = 47 := fun _ => drive_small (by decide)
  rw [canonicLoop]
  simp only [hSlash, two_le_buffer hClean, hDrive]
  rcases stack with - | ⟨c, stack⟩
  · simp only [buffer_nil]
    rcases lead with - | - | n
    · simp [leadStep]
    · by_cases hNil : fnm = []
      · subst hNil
        simp [leadStep, components, canonicLoop]
      · simp [leadStep, hEnd, hNil, List.replicate_succ]
    · simp [leadStep, List.replicate_succ]
  · rw [buffer_cons (hClean c List.mem_cons_self).2.2]
    simp [leadStep, buffer_cons (hClean c List.mem_cons_self).2.2]

/-- The loop leaves the text of the shape. -/
theorem canonicLoop_eq {cs : List Text} (hName : components s = cs) (hClean : Clean stack) :
    canonicLoop 0 (buffer lead stack) s = (capital (shape lead stack cs).text).reverse := by
  induction cs generalizing s lead stack with
  | nil => exact absurd hName (components_ne_nil s)
  | cons c cs ih =>
    -- the last component has no separator behind it
    rcases cs with - | ⟨e, rest⟩
    · obtain ⟨rfl, hFree⟩ := components_single hName
      show _ = (capital (full lead stack ++ s)).reverse
      rw [capital_full, List.reverse_append]
      by_cases hNil : s = []
      · subst hNil
        have hMark : mark lead stack [] = [] := (mark_eq_iff (by simp)).2 rfl
        rw [hMark]
        rfl
      · have hLoop : canonicLoop 0 (buffer lead stack) (s ++ []) =
            canonicLoop 0 ((mark lead stack s).reverse ++ buffer lead stack) [] :=
          loop_component hClean hFree hNil (by simp) fun h => absurd rfl h
        rw [List.append_nil] at hLoop
        rw [hLoop]
        rfl
    · obtain ⟨d, s', rfl, hFree, hSep, hRest⟩ := components_cons hName
      have hEnd : e :: rest = [[]] ↔ s' = [] := by
        rw [← hRest]
        constructor
        · intro h
          exact (components_single h).1
        · rintro rfl
          rfl
      have hNext : ∀ y ∈ (d :: s').head?, isSeparator y = true := by
        intro y hy
        obtain rfl : d = y := by simpa using hy
        exact hSep
      rw [shape]
      by_cases hNil : c = []
      · subst hNil
        have hSame : reduceStep stack [] = stack := by simp [reduceStep]
        have hNe : stack ≠ [] :: stack := (List.cons_ne_self _ _).symm
        rw [hSame, if_neg (fun h => hNe h.2.1), ← ih hRest hClean, ← hRest]
        exact loop_empty hClean hSep
      · by_cases hDot : c = [46]
        -- `.` is skipped with its separator
        · subst hDot
          have hSame : reduceStep stack [46] = stack := by simp [reduceStep]
          have hNe : stack ≠ [46] :: stack := (List.cons_ne_self _ _).symm
          have hLead : leadStep lead stack [46] (e :: rest) = lead := by simp [leadStep]
          rw [hSame, hLead, if_neg (fun h => hNe h.2.1), ← ih hRest hClean]
          show canonicLoop 0 (buffer lead stack) (46 :: d :: s') = _
          rw [canonicLoop]
          simp [atStart_buffer hClean, hSep, canonicLoop]
        · have hLead : leadStep lead stack c (e :: rest) = lead := by simp [leadStep, hNil]
          rw [hLead]
          by_cases hPush : reduceStep stack c = c :: stack
          · have hLoop : canonicLoop 0 (buffer lead stack) (c ++ d :: s') =
                canonicLoop 0 ((mark lead stack c).reverse ++ buffer lead stack) (d :: s') :=
              loop_component hClean hFree hNil hNext fun _ => ⟨hDot, fun _ => hPush⟩
            have hMark : Free (mark lead stack c) := hFree.mark
            have hMarkNil : mark lead stack c ≠ [] := fun h =>
              hNil ((mark_eq_iff (by simp)).1 h)
            obtain ⟨t, x, ht⟩ : ∃ t x, mark lead stack c = t ++ [x] :=
              ⟨_, _, (List.dropLast_append_getLast hMarkNil).symm⟩
            have hx : x ≠ 47 := (mem_free hMark (by rw [ht]; simp)).1
            have hOut : (mark lead stack c).reverse ++ buffer lead stack =
                x :: (t.reverse ++ buffer lead stack) := by rw [ht]; simp
            have hColon : x = 58 ↔ c.getLast? = some 58 := by
              rw [← @mark_getLast lead stack, ht]
              simp
            rw [hLoop, hOut, loop_separator hSep hx, ← hOut]
            -- the loop is left behind the last separator, unless a colon stands before it
            by_cases hLeave : s' = [] ∧ x ≠ 58
            · rw [if_pos hLeave, if_pos ⟨hEnd.2 hLeave.1, hPush, fun h => hLeave.2 (hColon.2 h)⟩,
                Shape.text, capital_full, List.reverse_append]
              rfl
            · rw [if_neg hLeave,
                if_neg (fun h => hLeave ⟨hEnd.1 h.1, fun hx => h.2.2 (hColon.1 hx)⟩),
                hPush,
                ← ih hRest (List.forall_mem_cons.2 ⟨⟨hNil, hDot, hFree⟩, hClean⟩),
                buffer_cons hFree]
          · -- the dots take a component away
            obtain rfl : c = [46, 46] := by
              by_contra hNot
              exact hPush (by simp [reduceStep, hNil, hDot, hNot])
            rw [if_neg (fun h => hPush h.2.1), ← ih hRest (hClean.reduceStep hFree)]
            show canonicLoop 0 (buffer lead stack) (46 :: 46 :: d :: s') = _
            rw [canonicLoop]
            simp [atStart_buffer hClean, isSeparator, dropComponent_buffer hClean hSep, hPush,
              canonicLoop]

end

/-- The canonic form is the text of a shape, with the letter of a drive as a capital. -/
theorem canonic_eq (s : Text) :
    canonicPathMapFileName s = capital (shape 0 [] (components s)).text := by
  have hStart : buffer 0 [] = [] := rfl
  have hLoop : canonicLoop 0 (buffer 0 []) s = (capital (shape 0 [] (components s)).text).reverse :=
    canonicLoop_eq rfl fun _ hc => absurd hc List.not_mem_nil
  rw [hStart] at hLoop
  rw [canonicPathMapFileName, hLoop, List.reverse_reverse]

end TcfAgent.PathNames

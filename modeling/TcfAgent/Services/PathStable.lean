import TcfAgent.Services.PathCanonic

/-!
# What the canonic form of a file name is like

A canonic form has no backslash, no component that is a dot and no empty one behind its first
character. It is a fixed point when no separator is left at its end.

Main results:

* `canonic_noBackslash`, `canonic_noDot`, `canonic_noDouble` — what no canonic form has;
* `components_canonic`  — the components of a canonic form;
* `canonic_canonic_iff` — the forms that are fixed points.
-/

namespace TcfAgent.PathNames

open TcfAgent.JsonText (Text)

/-! ## Texts and shapes -/

section

variable {lead : Nat} {stack below rest cs pre post : List Text} {c s t : Text} {x : UInt8}

/-- Every component of the stack stays where it is. -/
def Settled : List Text → Prop
  | [] => True
  | c :: stack => reduceStep stack c = c :: stack ∧ Settled stack

theorem reduceStep_cases (stack : List Text) (c : Text) :
    (c = [] ∨ c = [46]) ∧ reduceStep stack c = stack ∨ reduceStep stack c = c :: stack ∨
      ∃ top below, stack = top :: below ∧ c = [46, 46] ∧ top ≠ [46, 46] ∧
        reduceStep stack c = below := by
  unfold reduceStep
  split
  · rename_i hPlain
    exact .inl ⟨hPlain, rfl⟩
  · split
    · rename_i hDots
      split
      · rename_i top below
        split
        · exact .inr (.inl rfl)
        · exact .inr (.inr ⟨top, below, rfl, hDots, ‹_›, rfl⟩)
      · exact .inr (.inl rfl)
    · exact .inr (.inl rfl)

theorem Settled.reduceStep (h : Settled stack) (c : Text) : Settled (reduceStep stack c) := by
  rcases reduceStep_cases stack c with ⟨-, hSame⟩ | hPush | ⟨top, below, rfl, -, -, hPop⟩
  · rwa [hSame]
  · rw [hPush]
    exact ⟨hPush, h⟩
  · rw [hPop]
    exact h.2

/-- What every stack of a shape is like. -/
structure Tidy (sh : Shape) : Prop where
  few     : sh.lead ≤ 2
  clean   : Clean sh.stack
  settled : Settled sh.stack
  tail    : Free sh.tail

theorem leadStep_le (h : lead ≤ 2) : leadStep lead stack c rest ≤ 2 := by
  unfold leadStep
  split
  · omega
  · exact h

theorem tidy_shape (hLead : lead ≤ 2) (hClean : Clean stack) (hSettled : Settled stack)
    (hFree : ∀ c ∈ cs, Free c) : Tidy (shape lead stack cs) := by
  induction cs generalizing lead stack with
  | nil => exact ⟨hLead, hClean, hSettled, fun x hx => absurd hx List.not_mem_nil⟩
  | cons c cs ih =>
    have hHead := hFree c List.mem_cons_self
    rcases cs with - | ⟨e, rest⟩
    · exact ⟨hLead, hClean, hSettled, hHead⟩
    · rw [shape]
      split
      · exact ⟨hLead, hClean, hSettled, hHead⟩
      · exact ih (leadStep_le hLead) (hClean.reduceStep hHead) (hSettled.reduceStep c) fun d hd =>
          hFree d (List.mem_cons_of_mem _ hd)

theorem tidy_name (s : Text) : Tidy (shape 0 [] (components s)) :=
  tidy_shape (Nat.zero_le 2) (fun _ hc => absurd hc List.not_mem_nil) trivial fun _ hc =>
    free_of_mem hc

/-- The components of its text. -/
def Shape.components (sh : Shape) : List Text :=
  List.replicate sh.lead [] ++ sh.stack.reverse ++ [sh.tail]

theorem components_separator (s t : Text) :
    components (s ++ 47 :: t) = components s ++ components t := by
  induction hLength : s.length using Nat.strong_induction_on generalizing s with
  | _ n ih =>
    rcases split_name s with hFree | ⟨c, d, s', rfl, hFree, hSep⟩
    · rw [components_append hFree rfl, components_free hFree]
      rfl
    · rw [List.append_assoc, List.cons_append, components_append hFree hSep,
        components_append hFree hSep, ih s'.length (by simp at hLength; omega) s' rfl]
      rfl

theorem components_full (hClean : Clean stack) (hFree : Free t) :
    components (full lead stack ++ t) = List.replicate lead [] ++ stack.reverse ++ [t] := by
  induction stack generalizing t with
  | nil =>
    rw [full, List.reverse_nil, List.append_nil]
    induction lead with
    | zero => exact components_free hFree
    | succ n ih =>
      show components ([] ++ 47 :: (List.replicate n 47 ++ t)) = _
      rw [components_separator, ih]
      rfl
  | cons c stack ih =>
    have hHead := hClean c List.mem_cons_self
    have hRest : Clean stack := (List.forall_mem_cons.1 hClean).2
    have hText : full lead (c :: stack) ++ t = (full lead stack ++ c) ++ 47 :: t := by
      simp [full]
    rw [hText, components_separator, ih hRest hHead.2.2, components_free hFree]
    simp

variable {sh : Shape}

theorem Tidy.components_text (h : Tidy sh) : components sh.text = sh.components :=
  components_full h.clean h.tail

/-! ## The letter of the drive -/

/-- The stack as it is put into the buffer. -/
def markStack (lead : Nat) : List Text → List Text
  | [] => []
  | c :: stack => mark lead stack c :: markStack lead stack

/-- The shape as it is put into the buffer. -/
def Shape.marked (sh : Shape) : Shape :=
  ⟨sh.lead, markStack sh.lead sh.stack, mark sh.lead sh.stack sh.tail⟩

theorem capital_full_stack (hClean : Clean stack) :
    capital (full lead stack) = full lead (markStack lead stack) := by
  induction stack with
  | nil =>
    have hBuffer := buffer_nil lead
    rw [buffer, List.reverse_eq_iff, List.reverse_replicate] at hBuffer
    exact hBuffer
  | cons c stack ih =>
    have hHead := hClean c List.mem_cons_self
    have hRest : Clean stack := (List.forall_mem_cons.1 hClean).2
    have hBuffer := @buffer_cons lead stack c hHead.2.2
    rw [buffer, List.reverse_eq_iff, buffer, ih hRest] at hBuffer
    rw [hBuffer]
    simp [full, markStack]

theorem marked_text (h : Clean sh.stack) : capital sh.text = sh.marked.text := by
  rw [Shape.text, capital_full, capital_full_stack h]
  rfl

theorem clean_markStack (hClean : Clean stack) : Clean (markStack lead stack) := by
  induction stack with
  | nil => exact hClean
  | cons c stack ih =>
    obtain ⟨hSome, hDot, hFree⟩ := hClean c List.mem_cons_self
    refine List.forall_mem_cons.2 ⟨⟨fun h => hSome ((mark_eq_iff (by simp)).1 h),
      fun h => hDot ((mark_eq_iff (by simp)).1 h), hFree.mark⟩, ?_⟩
    exact ih (List.forall_mem_cons.1 hClean).2

@[simp] theorem mark_eq_nil : mark lead stack c = [] ↔ c = [] := mark_eq_iff (by simp)

@[simp] theorem mark_eq_dot : mark lead stack c = [46] ↔ c = [46] := mark_eq_iff (by simp)

@[simp] theorem mark_eq_dots : mark lead stack c = [46, 46] ↔ c = [46, 46] := mark_eq_iff (by simp)

theorem reduceStep_markStack (hStays : reduceStep stack c = c :: stack) :
    reduceStep (markStack lead stack) (mark lead stack c) =
      mark lead stack c :: markStack lead stack := by
  have hNe : stack ≠ c :: stack := (List.cons_ne_self _ _).symm
  unfold reduceStep at hStays ⊢
  simp only [mark_eq_nil, mark_eq_dot, mark_eq_dots]
  split at hStays
  · exact absurd hStays hNe
  · rename_i hPlain
    rw [if_neg hPlain]
    split at hStays
    · rename_i hUp
      rw [if_pos hUp]
      rcases stack with - | ⟨top, below⟩
      · rfl
      · simp only at hStays
        split at hStays
        · rename_i hAgain
          simp only [markStack, mark_eq_dots]
          rw [if_pos hAgain]
        · have hLength := congrArg List.length hStays
          simp only [List.length_cons] at hLength
          omega
    · rename_i hUp
      rw [if_neg hUp]

theorem settled_markStack (h : Settled stack) : Settled (markStack lead stack) := by
  induction stack with
  | nil => trivial
  | cons c stack ih => exact ⟨reduceStep_markStack h.1, ih h.2⟩

theorem Tidy.marked (h : Tidy sh) : Tidy sh.marked :=
  ⟨h.few, clean_markStack h.clean, settled_markStack h.settled, h.tail.mark⟩

@[simp] theorem upper_upper (x : UInt8) : upper (upper x) = upper x := by
  unfold upper
  split
  · rename_i hLetter
    have hLow : 97 ≤ x.toNat := UInt8.le_iff_toNat_le.1 hLetter.1
    have hHigh : x.toNat ≤ 122 := UInt8.le_iff_toNat_le.1 hLetter.2
    have hLess : (x - 32).toNat = x.toNat - 32 := UInt8.toNat_sub_of_le x 32 (by
      rw [UInt8.le_iff_toNat_le]
      show 32 ≤ x.toNat
      omega)
    refine if_neg fun hAgain => ?_
    have hAgain : 97 ≤ (x - 32).toNat := UInt8.le_iff_toNat_le.1 hAgain.1
    omega
  · rfl

theorem capital_capital (s : Text) : capital (capital s) = capital s := by
  rcases s with - | ⟨x, - | ⟨y, s⟩⟩
  · rfl
  · rfl
  · by_cases hy : y = 58
    · subst hy
      show upper (upper x) :: 58 :: s = upper x :: 58 :: s
      rw [upper_upper]
    · have hPlain : capital (x :: y :: s) = x :: y :: s := capital_cons (by simpa using hy)
      rw [hPlain, hPlain]

theorem length_capital (s : Text) : (capital s).length = s.length := by
  rcases s with - | ⟨x, - | ⟨y, s⟩⟩
  · rfl
  · rfl
  · by_cases hy : y = 58
    · subst hy
      rfl
    · have hPlain : capital (x :: y :: s) = x :: y :: s := capital_cons (by simpa using hy)
      rw [hPlain]

/-! ## What no canonic form has -/

theorem Tidy.noBackslash (h : Tidy sh) : 92 ∉ sh.text := by
  have hFull : ∀ stack, Clean stack → 92 ∉ full sh.lead stack := by
    intro stack hClean
    induction stack with
    | nil =>
      intro hMem
      exact absurd (List.eq_of_mem_replicate hMem) (by decide)
    | cons c stack ih =>
      intro hMem
      have hHead := hClean c List.mem_cons_self
      rcases List.mem_append.1 hMem with hMem | hMem
      · exact ih (List.forall_mem_cons.1 hClean).2 hMem
      · rcases List.mem_append.1 hMem with hMem | hMem
        · exact (mem_free hHead.2.2 hMem).2 rfl
        · exact absurd (List.mem_singleton.1 hMem) (by decide)
  intro hMem
  rcases List.mem_append.1 hMem with hMem | hMem
  · exact hFull sh.stack h.clean hMem
  · exact (mem_free h.tail hMem).2 rfl

/-- A component that is not the last one is an empty one before the others, or on the stack. -/
theorem Shape.components_inner (h : sh.components = pre ++ c :: post)
    (hMore : post ≠ []) : (c = [] ∧ pre.length < sh.lead) ∨ c ∈ sh.stack := by
  have hInner : List.replicate sh.lead [] ++ sh.stack.reverse = pre ++ c :: post.dropLast := by
    have hLast := congrArg List.dropLast h
    rwa [Shape.components, List.dropLast_concat,
      List.dropLast_append_of_ne_nil (List.cons_ne_nil _ _),
      List.dropLast_cons_of_ne_nil hMore] at hLast
  by_cases hLead : pre.length < sh.lead
  · left
    have hGet := congrArg (·[pre.length]?) hInner
    simp only [List.getElem?_append_right (Nat.le_refl _), Nat.sub_self,
      List.getElem?_cons_zero] at hGet
    rw [List.getElem?_append_left (by simpa using hLead)] at hGet
    have hMem := List.mem_of_getElem? hGet
    exact ⟨List.eq_of_mem_replicate hMem, hLead⟩
  · right
    have hDrop := congrArg (List.drop sh.lead) hInner
    rw [List.drop_left' (List.length_replicate), List.drop_append_of_le_length (by omega)] at hDrop
    rw [← List.mem_reverse, hDrop]
    simp

theorem Tidy.noDot (h : Tidy sh) : ¬ [47, 46, 47] <:+: sh.text := by
  rintro ⟨a, b, hText⟩
  have hComponents : sh.components = components a ++ [46] :: components b := by
    have hSplit : sh.text = a ++ 47 :: ([46] ++ 47 :: b) := by
      rw [← hText]
      simp
    rw [← h.components_text, hSplit, components_separator, components_separator]
    rfl
  rcases Shape.components_inner hComponents (components_ne_nil b) with ⟨hNil, -⟩ | hMem
  · cases hNil
  · exact (h.clean _ hMem).2.1 rfl

theorem Tidy.noDouble (h : Tidy sh) : ¬ [47, 47] <:+: sh.text.drop 1 := by
  rintro ⟨a, b, hText⟩
  rcases hWhole : sh.text with - | ⟨y, rest⟩
  · rw [hWhole] at hText
    simp at hText
  · have hComponents : sh.components = components (y :: a) ++ [] :: components b := by
      have hSplit : sh.text = (y :: a) ++ 47 :: ([] ++ 47 :: b) := by
        have hRest : rest = a ++ [47, 47] ++ b := by
          rw [hText, hWhole, List.drop_one, List.tail_cons]
        rw [hWhole, hRest]
        simp
      rw [← h.components_text, hSplit, components_separator, components_separator]
      rfl
    rcases Shape.components_inner hComponents (components_ne_nil b) with ⟨-, hLess⟩ | hMem
    · -- the first component would be the empty one before a separator
      have hFew := h.few
      have hOne : components (y :: a) = [[]] := by
        have hHead := congrArg List.head? hComponents
        rcases hFirst : components (y :: a) with - | ⟨c, - | ⟨d, cs⟩⟩
        · exact absurd hFirst (components_ne_nil _)
        · obtain ⟨n, hn⟩ : ∃ n, sh.lead = n + 1 := ⟨sh.lead - 1, by omega⟩
          rw [hFirst, Shape.components, hn, List.replicate_succ] at hHead
          obtain rfl : [] = c := by simpa using hHead
          rfl
        · rw [hFirst] at hLess
          simp only [List.length_cons] at hLess
          omega
      cases (components_single hOne).1
    · exact (h.clean _ hMem).1 rfl

/-! ## Fixed points -/

/-- No separator is left at the end, but that of the root and of drives. -/
def Closed (sh : Shape) : Prop :=
  sh.tail = [] →
    match sh.stack with
    | [] => sh.lead ≤ 1
    | top :: _ => top.getLast? = some 58

theorem closed_marked : Closed sh.marked ↔ Closed sh := by
  rcases sh with ⟨lead, - | ⟨top, below⟩, tail⟩
  · simp only [Closed, Shape.marked, mark_eq_nil, markStack]
  · simp only [Closed, Shape.marked, mark_eq_nil, markStack, mark_getLast]

theorem shape_settled (hClean : Clean stack) (hSettled : Settled stack) (hMore : rest ≠ [])
    (hEnd : rest ≠ [[]]) : shape lead [] (stack.reverse ++ rest) = shape lead stack rest := by
  induction stack generalizing rest with
  | nil => rfl
  | cons c stack ih =>
    have hSome := (hClean c List.mem_cons_self).1
    have hBelow :=
      ih (List.forall_mem_cons.1 hClean).2 hSettled.2 (List.cons_ne_nil c rest) fun h =>
      hMore (List.cons.inj h).2
    obtain ⟨e, rest, rfl⟩ := List.exists_cons_of_ne_nil hMore
    rw [List.reverse_cons, List.append_assoc, List.singleton_append, hBelow, shape,
      if_neg (fun h => hEnd h.1), hSettled.1]
    simp [leadStep, hSome]

theorem shape_lead (hLead : lead ≤ 1 ∨ lead = 2 ∧ rest ≠ [[]]) (hMore : rest ≠ []) :
    shape 0 [] (List.replicate lead [] ++ rest) = shape lead [] rest := by
  obtain ⟨e, rest, rfl⟩ := List.exists_cons_of_ne_nil hMore
  have hFirst : ∀ d cs, shape 0 [] ([] :: d :: cs) = shape 1 [] (d :: cs) := by
    intro d cs
    simp [shape, reduceStep, leadStep]
  rcases hLead with hSmall | ⟨rfl, hEnd⟩
  · rcases lead with - | - | n
    · rfl
    · exact hFirst e rest
    · omega
  · show shape 0 [] ([] :: [] :: e :: rest) = _
    rw [hFirst]
    simp [shape, reduceStep, leadStep, hEnd]

theorem lead_cases (hFew : lead ≤ 2) (hEnd : rest ≠ [[]]) : lead ≤ 1 ∨ lead = 2 ∧ rest ≠ [[]] := by
  rcases Nat.lt_or_ge lead 2 with hLess | hTwo
  · exact .inl (by omega)
  · exact .inr ⟨by omega, hEnd⟩

theorem stack_ne_end (stack : List Text) (c d : Text) : stack ++ [c, d] ≠ [[]] := by
  intro h
  have hLength := congrArg List.length h
  simp at hLength

theorem Tidy.shape_components (h : Tidy sh) (hClosed : Closed sh) :
    shape 0 [] sh.components = sh := by
  rcases sh with ⟨lead, stack, tail⟩
  have hFew : lead ≤ 2 := h.few
  have hClean : Clean stack := h.clean
  have hSettled : Settled stack := h.settled
  show shape 0 [] (List.replicate lead [] ++ stack.reverse ++ [tail]) = _
  by_cases hTail : tail = []
  · subst hTail
    have hLast := hClosed rfl
    rcases stack with - | ⟨top, below⟩
    · rw [List.reverse_nil, List.append_nil, shape_lead (.inl hLast) (List.cons_ne_nil _ _)]
      rfl
    · have hColon : top.getLast? = some 58 := hLast
      have hTop := hClean top List.mem_cons_self
      rw [List.append_assoc, List.reverse_cons, List.append_assoc,
        List.singleton_append, shape_lead (lead_cases hFew (stack_ne_end _ _ _)) (by simp),
        shape_settled (List.forall_mem_cons.1 hClean).2 hSettled.2 (by simp) (by simp)]
      show shape lead below [top, []] = _
      rw [shape, if_neg (fun h => h.2.2 hColon), hSettled.1]
      simp [leadStep, hTop.1, shape]
  · have hEnd : ([tail] : List Text) ≠ [[]] := fun h => hTail (List.cons.inj h).1
    have hAll : stack.reverse ++ [tail] ≠ [[]] := by
      rcases stack with - | ⟨top, below⟩
      · exact hEnd
      · rw [List.reverse_cons, List.append_assoc]
        exact stack_ne_end _ _ _
    rw [List.append_assoc, shape_lead (lead_cases hFew hAll) (by simp),
      shape_settled hClean hSettled (List.cons_ne_nil _ _) hEnd]
    rfl

theorem Tidy.shape_components_short (h : Tidy sh) (hOpen : ¬ Closed sh) :
    (shape 0 [] sh.components).text.length < sh.text.length := by
  rcases sh with ⟨lead, stack, tail⟩
  have hFew : lead ≤ 2 := h.few
  have hClean : Clean stack := h.clean
  have hSettled : Settled stack := h.settled
  obtain rfl : tail = [] := by
    by_contra hTail
    exact hOpen fun hNil => absurd hNil hTail
  show (shape 0 [] (List.replicate lead [] ++ stack.reverse ++ [[]])).text.length < _
  rcases stack with - | ⟨top, below⟩
  · have hTwo : lead = 2 := by
      by_contra hNot
      exact hOpen fun _ => show lead ≤ 1 by omega
    subst hTwo
    exact (by decide : (shape 0 [] [[], [], []]).text.length < (⟨2, [], []⟩ : Shape).text.length)
  · have hColon : top.getLast? ≠ some 58 := fun hColon => hOpen fun _ => hColon
    rw [List.append_assoc, List.reverse_cons, List.append_assoc,
      List.singleton_append, shape_lead (lead_cases hFew (stack_ne_end _ _ _)) (by simp),
      shape_settled (List.forall_mem_cons.1 hClean).2 hSettled.2 (by simp) (by simp)]
    show (shape lead below [top, []]).text.length < _
    rw [shape, if_pos ⟨rfl, hSettled.1, hColon⟩]
    simp [Shape.text, full]

end

/-! ## The canonic form of a name -/

section

variable (s : Text)

theorem canonic_text :
    canonicPathMapFileName s = (shape 0 [] (components s)).marked.text := by
  rw [canonic_eq, marked_text (tidy_name s).clean]

theorem components_canonic :
    components (canonicPathMapFileName s) = (shape 0 [] (components s)).marked.components := by
  rw [canonic_text, (tidy_name s).marked.components_text]

theorem canonic_noBackslash : 92 ∉ canonicPathMapFileName s := by
  rw [canonic_text]
  exact (tidy_name s).marked.noBackslash

theorem canonic_noDot : ¬ [47, 46, 47] <:+: canonicPathMapFileName s := by
  rw [canonic_text]
  exact (tidy_name s).marked.noDot

theorem canonic_noDouble : ¬ [47, 47] <:+: (canonicPathMapFileName s).drop 1 := by
  rw [canonic_text]
  exact (tidy_name s).marked.noDouble

theorem canonic_canonic_iff :
    canonicPathMapFileName (canonicPathMapFileName s) = canonicPathMapFileName s ↔
      Closed (shape 0 [] (components s)) := by
  have hTidy := (tidy_name s).marked
  rw [canonic_eq (canonicPathMapFileName s), components_canonic, ← closed_marked]
  constructor
  · intro hSame
    by_contra hOpen
    have hShort := hTidy.shape_components_short hOpen
    have hLength := congrArg List.length hSame
    rw [length_capital, canonic_text] at hLength
    omega
  · intro hClosed
    rw [hTidy.shape_components hClosed, ← marked_text (tidy_name s).clean,
      capital_capital, canonic_eq]

end

end TcfAgent.PathNames

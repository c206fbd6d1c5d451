import TcfAgent.Services.PathStable

/-!
# When a file name has a canonic form

The components at the beginning of a name can take each other away. What comes first then may be a
separator, which was inside of the name, or a component that designates a drive, which was none; a
drive may be gone. A separator at the end of the name is left where the component before it was
taken away.

Main results:

* `locate_cons`, `isAbsolutePath_cons` — names said with their components;
* `components_steady` — the components of the form of a name whose first component stays;
* `canonic_iff`       — the names that have a canonic form.
-/

namespace TcfAgent.PathNames

open TcfAgent.JsonText (Text)

/-! ## The names that have a canonic form -/

def driveOf : Text → Option UInt8
  | x :: 58 :: _ => some (upper x)
  | _ => none

/-- The component without the designation of the drive. -/
def inDrive : Text → Text
  | _ :: 58 :: c => c
  | c => c

/-- A component that is a name. -/
def Plain (c : Text) : Prop := c ≠ [] ∧ c ≠ [46] ∧ c ≠ [46, 46]

/-- An empty component, with `k` components after it, behind ones that take each other away. -/
def Gap (k : Nat) (cs : List Text) : Prop :=
  ∃ pre post, cs = pre ++ [] :: post ∧ pre ≠ [] ∧ reduce [] pre = [] ∧ k ≤ post.length

/-- The component `c` is there as long as others come. -/
def Steady (c : Text) (post : List Text) : Prop :=
  ∀ mid rest, post = mid ++ rest → rest ≠ [] → reduce [] (c :: mid) ≠ []

/-- The component `c` can be the first one instead of `first`. When they designate a drive, both are
gone at the end of the name. -/
def Agree (first c : Text) (cs : List Text) : Prop :=
  driveOf first = driveOf c ∧
    (driveOf first = none ∨
      reduce [] cs = [] ∧ (inDrive first = inDrive c ∨ Plain (inDrive first) ∧ Plain (inDrive c)))

/-- The components of a name that has a canonic form. -/
structure Regular (first : Text) (rest : List Text) : Prop where
  root : first = [] ∨ ¬ Gap 1 (first :: rest)
  drive : first = [] ∨ ∀ pre c post, rest = pre ++ c :: post → reduce [] (first :: pre) = [] →
    Steady c post → Agree first c (first :: rest)
  closed : ∀ front, first :: rest = front ++ [[]] →
    match reduce [] front with
    | [] => ¬ Gap 2 (first :: rest)
    | top :: _ => top.getLast? = some 58 ∨
        ∃ front' c, front = front' ++ [c] ∧ reduce [] front = c :: reduce [] front'

/-! ## Names said with their components -/

section

variable {lead : Nat} {stack up base u rest cs pre mid post dir : List Text}
variable {first c s name : Text} {x : UInt8}

theorem inDrive_none (h : driveOf c = none) : inDrive c = c := by
  unfold driveOf at h
  split at h
  · cases h
  · rename_i hNot
    unfold inDrive
    split
    · rename_i y d
      exact absurd rfl (hNot y d)
    · rfl

theorem driveOf_eq_some (h : driveOf c = some x) :
    ∃ y d, c = y :: 58 :: d ∧ x = upper y ∧ inDrive c = d := by
  unfold driveOf at h
  split at h
  · rename_i y d
    exact ⟨y, d, rfl, (Option.some.inj h).symm, rfl⟩
  · cases h

theorem plain_drive (h : driveOf c ≠ none) : Plain c := by
  obtain ⟨x, hx⟩ := Option.ne_none_iff_exists'.1 h
  obtain ⟨y, d, rfl, -, -⟩ := driveOf_eq_some hx
  exact ⟨by simp, by simp, by simp⟩

theorem getLast_of_inDrive (hSome : c ≠ []) (hRoot : inDrive c = []) : c.getLast? = some 58 := by
  unfold inDrive at hRoot
  split at hRoot
  · subst hRoot
    rfl
  · exact absurd hRoot hSome

theorem drive_capital (c : Text) : driveOf (capital c) = driveOf c ∧ inDrive
    (capital c) = inDrive c := by
  rcases c with - | ⟨x, - | ⟨y, c⟩⟩
  · exact ⟨rfl, rfl⟩
  · exact ⟨rfl, rfl⟩
  · by_cases hy : y = 58
    · subst hy
      exact ⟨congrArg some (upper_upper x), rfl⟩
    · have hPlain : capital (x :: y :: c) = x :: y :: c := capital_cons (by simpa using hy)
      rw [hPlain]
      exact ⟨rfl, rfl⟩

variable (start : Option UInt8 → List Text)

theorem locate_cons (hName : components name = c :: cs) :
    locate start name = (driveOf c,
      resolve (if inDrive c = [] ∧ cs ≠ [] then [] else start (driveOf c)) (inDrive c :: cs)) := by
  unfold locate
  rw [hName]
  rcases c with - | ⟨x, - | ⟨y, c⟩⟩
  · rfl
  · rfl
  · by_cases hy : y = 58
    · subst hy
      rfl
    · have hDrive : driveOf (x :: y :: c) = none := by
        unfold driveOf
        split
        · rename_i h
          exact absurd (List.cons.inj (List.cons.inj h).2).1 hy
        · rfl
      rw [hDrive, inDrive_none hDrive]
      split
      · rename_i h
        exact absurd (List.cons.inj (List.cons.inj (List.cons.inj h).1).2).1 hy
      · rename_i h
        obtain ⟨rfl, rfl⟩ := List.cons.inj h
        rfl
      · rename_i h
        cases h

theorem isAbsolutePath_cons (hName : components name = c :: cs) :
    isAbsolutePath name = true ↔ inDrive c = [] ∧ cs ≠ [] := by
  rcases cs with - | ⟨e, cs⟩
  · obtain ⟨rfl, hFree⟩ := components_single hName
    simp only [ne_eq, not_true_eq_false, and_false, iff_false, Bool.not_eq_true]
    rcases name with - | ⟨x, name⟩
    · rfl
    · rcases name with - | ⟨y, - | ⟨z, name⟩⟩
      · simp [isAbsolutePath, hFree x List.mem_cons_self]
      · simp [isAbsolutePath, hFree x List.mem_cons_self]
      · have hz := hFree z (by simp)
        by_cases hy : y = 58
        · subst hy
          simp [isAbsolutePath, hFree x List.mem_cons_self, hz]
        · simp [isAbsolutePath, hFree x List.mem_cons_self, hy]
  · obtain ⟨d, s', rfl, hFree, hSep, -⟩ := components_cons hName
    simp only [ne_eq, reduceCtorEq, not_false_eq_true, and_true]
    rcases c with - | ⟨x, - | ⟨y, c⟩⟩
    · simp [isAbsolutePath, inDrive, hSep]
    · have hx := hFree x List.mem_cons_self
      have hd : d ≠ 58 := by
        rintro rfl
        exact absurd hSep (by decide)
      show isAbsolutePath (x :: d :: s') = true ↔ [x] = []
      rcases s' with - | ⟨z, s'⟩
      · simp [isAbsolutePath, hx]
      · simp [isAbsolutePath, hx, hd]
    · have hx := hFree x List.mem_cons_self
      by_cases hy : y = 58
      · subst hy
        show isAbsolutePath (x :: 58 :: (c ++ d :: s')) = true ↔ c = []
        rcases c with - | ⟨z, c⟩
        · simp [isAbsolutePath, hSep]
        · have hz := hFree z (by simp)
          simp [isAbsolutePath, hx, hz]
      · have hInDrive : inDrive (x :: y :: c) = x :: y :: c := by
          unfold inDrive
          split
          · rename_i h
            exact absurd (List.cons.inj (List.cons.inj h).2).1 hy
          · rfl
        rw [hInDrive]
        show isAbsolutePath (x :: y :: (c ++ d :: s')) = true ↔ _
        rcases hMore : c ++ d :: s' with - | ⟨z, t⟩
        · simp [isAbsolutePath, hx]
        · simp [isAbsolutePath, hx, hy]

/-! ## Reducing and resolving -/

theorem reduce_append (stack pre post : List Text) :
    reduce stack (pre ++ post) = reduce (reduce stack pre) post := List.foldl_append

theorem resolve_append (dir pre post : List Text) :
    resolve dir (pre ++ post) = resolve (resolve dir pre) post := List.foldl_append

theorem Clean.reduce (hClean : Clean stack) (hFree : ∀ c ∈ cs, Free c) :
    Clean (reduce stack cs) := by
  induction cs generalizing stack with
  | nil => exact hClean
  | cons c cs ih =>
    exact ih (hClean.reduceStep (hFree c List.mem_cons_self)) fun d hd =>
      hFree d (List.mem_cons_of_mem _ hd)

theorem Settled.reduce (h : Settled stack) (cs : List Text) : Settled (reduce stack cs) := by
  induction cs generalizing stack with
  | nil => exact h
  | cons c cs ih => exact ih (h.reduceStep c)

/-- A step that leaves what is below where it is, is the same from any directory. -/
theorem resolve_reduceStep (hClean : Clean (up ++ base))
    (hStep : reduceStep (up ++ base) c = u ++ base) :
    resolve dir u.reverse = enter (resolve dir up.reverse) c := by
  rcases reduceStep_cases (up ++ base) c with ⟨hPlain, hSame⟩ | hPush | ⟨top, below, hTop,
    rfl, hUp, hPop⟩
  · obtain rfl : u = up := List.append_cancel_right (hStep.symm.trans hSame)
    rw [enter, if_pos hPlain]
  · obtain rfl : u = c :: up := List.append_cancel_right (hStep.symm.trans hPush)
    rw [List.reverse_cons, resolve_append]
    rfl
  · obtain rfl : below = u ++ base := hPop.symm.trans hStep
    obtain rfl : up = top :: u := List.append_cancel_right hTop
    obtain ⟨hSome, hDot, -⟩ := hClean top List.mem_cons_self
    have hTopEnter : enter (resolve dir u.reverse) top = top :: resolve dir u.reverse := by
      rw [enter, if_neg (not_or.2 ⟨hSome, hDot⟩), if_neg hUp]
    rw [List.reverse_cons, resolve_append]
    show _ = enter (enter (resolve dir u.reverse) top) [46, 46]
    rw [hTopEnter]
    rfl

theorem resolve_reduce (hClean : Clean stack) (hFree : ∀ c ∈ cs, Free c) :
    resolve dir (reduce stack cs).reverse = resolve dir (stack.reverse ++ cs) := by
  induction cs generalizing stack with
  | nil => rw [List.append_nil]; rfl
  | cons c cs ih =>
    have hStep :
      resolve dir (reduceStep stack c).reverse = enter (resolve dir stack.reverse) c := by
      have hBare : Clean (stack ++ []) := by rwa [List.append_nil]
      exact resolve_reduceStep hBare (by rw [List.append_nil, List.append_nil])
    have hRest := ih (hClean.reduceStep (hFree c List.mem_cons_self)) fun d hd =>
      hFree d (List.mem_cons_of_mem _ hd)
    show resolve dir (reduce (reduceStep stack c) cs).reverse = _
    rw [hRest, resolve_append, hStep, resolve_append]
    rfl

/-- Components that take each other away lead nowhere. -/
theorem resolve_nothing (hNothing : reduce [] cs = []) (hFree : ∀ c ∈ cs, Free c) :
    resolve dir cs = dir := by
  have hAll : resolve dir (reduce [] cs).reverse = resolve dir ([].reverse ++ cs) :=
    resolve_reduce (fun _ hc => absurd hc List.not_mem_nil) hFree
  rw [hNothing] at hAll
  exact hAll.symm

/-- Components that take one before them away lead one up. -/
theorem resolve_away (hClean : Clean (up ++ [c])) (hNothing : reduce (up ++ [c]) cs = [])
    (hFree : ∀ c ∈ cs, Free c) :
    resolve dir (up.reverse ++ cs) = dir.tail := by
  induction cs generalizing up with
  | nil => exact absurd hNothing (by simp [reduce])
  | cons e cs ih =>
    have hHead := hFree e List.mem_cons_self
    have hTail : ∀ d ∈ cs, Free d := fun d hd => hFree d (List.mem_cons_of_mem _ hd)
    have hStays : ∀ u, reduceStep (up ++ [c]) e = u ++ [c] →
        resolve dir (up.reverse ++ e :: cs) = dir.tail := by
      intro u hStep
      have hRest : resolve dir (u.reverse ++ cs) = dir.tail := by
        refine ih ?_ ?_ hTail
        · rw [← hStep]
          exact hClean.reduceStep hHead
        · rw [← hStep]
          exact hNothing
      rw [resolve_append] at hRest ⊢
      rw [resolve_reduceStep hClean hStep] at hRest
      exact hRest
    rcases reduceStep_cases (up ++ [c]) e with ⟨-, hSame⟩ | hPush | ⟨top, below, hTop,
      rfl, hUp, hPop⟩
    · exact hStays up hSame
    · exact hStays (e :: up) hPush
    · rcases up with - | ⟨top', up⟩
      · obtain ⟨rfl, rfl⟩ := List.cons.inj hTop
        have hRest : reduce [] cs = [] := by
          have hFirst : reduce (reduceStep ([] ++ [c]) [46, 46]) cs = [] := hNothing
          rwa [hPop] at hFirst
        show resolve dir.tail cs = dir.tail
        exact resolve_nothing hRest hTail
      · obtain ⟨rfl, rfl⟩ := List.cons.inj hTop
        exact hStays up hPop

/-- Components that stay above `base` lead as far from any directory. -/
theorem resolve_above (hClean : Clean (up ++ base)) (hFree : ∀ c ∈ cs, Free c)
    (hNever : ∀ mid rest, cs = mid ++ rest → ∃ u, reduce (up ++ base) mid = u ++ base)
    (hAll : reduce (up ++ base) cs = u ++ base) :
    resolve dir u.reverse = resolve dir (up.reverse ++ cs) := by
  induction cs generalizing up with
  | nil =>
    obtain rfl : up = u := List.append_cancel_right hAll
    rw [List.append_nil]
  | cons c cs ih =>
    obtain ⟨v, hv⟩ := hNever [c] cs rfl
    have hStep : reduceStep (up ++ base) c = v ++ base := hv
    have hRest : resolve dir u.reverse = resolve dir (v.reverse ++ cs) := by
      refine ih ?_ (fun d hd => hFree d (List.mem_cons_of_mem _ hd)) ?_ ?_
      · rw [← hStep]
        exact hClean.reduceStep (hFree c List.mem_cons_self)
      · intro mid rest hSplit
        obtain ⟨w, hw⟩ := hNever (c :: mid) rest (by rw [hSplit]; rfl)
        refine ⟨w, ?_⟩
        rw [← hStep]
        exact hw
      · rw [← hStep]
        exact hAll
    rw [hRest, resolve_append, resolve_append, resolve_reduceStep hClean hStep]
    rfl

theorem stays_below
    (hNever : ∀ mid rest, cs = mid ++ rest → rest ≠ [] → reduce (up ++ [c]) mid ≠ [])
    (hSplit : cs = mid ++ rest) (hMore : rest ≠ []) : ∃ u, reduce (up ++ [c]) mid = u ++ [c] := by
  induction mid using List.reverseRecOn generalizing rest with
  | nil => exact ⟨up, rfl⟩
  | append_singleton mid e ih =>
    have hSome := hNever (mid ++ [e]) rest hSplit hMore
    have hLonger : cs = mid ++ e :: rest := by rw [hSplit]; simp
    obtain ⟨u, hu⟩ := ih hLonger (List.cons_ne_nil _ _)
    rw [reduce_append, hu] at hSome ⊢
    have hSome : reduceStep (u ++ [c]) e ≠ [] := hSome
    show ∃ v, reduceStep (u ++ [c]) e = v ++ [c]
    rcases reduceStep_cases (u ++ [c]) e with ⟨-, hSame⟩ | hPush | ⟨top, below, hTop, -, -, hPop⟩
    · exact ⟨u, hSame⟩
    · exact ⟨e :: u, hPush⟩
    · rcases u with - | ⟨top', u⟩
      · obtain ⟨-, rfl⟩ := List.cons.inj hTop
        exact absurd hPop hSome
      · obtain ⟨-, rfl⟩ := List.cons.inj hTop
        exact ⟨u, hPop⟩

/-! ## Shapes -/

theorem le_leadStep (lead : Nat) (stack : List Text) (c : Text) (rest : List Text) :
    lead ≤ leadStep lead stack c rest := by
  unfold leadStep
  split
  · omega
  · exact Nat.le_refl _

theorem le_shape_lead (lead : Nat) (stack cs : List Text) : lead ≤ (shape lead stack cs).lead := by
  induction cs generalizing lead stack with
  | nil => exact Nat.le_refl _
  | cons c cs ih =>
    rcases cs with - | ⟨e, rest⟩
    · exact Nat.le_refl _
    · rw [shape]
      split
      · exact Nat.le_refl _
      · exact (le_leadStep lead stack c (e :: rest)).trans (ih _ _)

/-- Whether an empty component before `post` puts a separator into the buffer, behind nothing but
`lead` separators. -/
def Leads (lead : Nat) (post : List Text) : Prop := lead = 0 ∨ lead = 1 ∧ post ≠ [[]]

theorem shape_lead_same (hNone : ∀ pre post, cs = pre ++ [] :: post → post ≠ [] →
    reduce stack pre = [] → ¬ Leads lead post) : (shape lead stack cs).lead = lead := by
  induction cs generalizing stack with
  | nil => rfl
  | cons c cs ih =>
    rcases cs with - | ⟨e, rest⟩
    · rfl
    · rw [shape]
      split
      · rfl
      · have hStep : leadStep lead stack c (e :: rest) = lead := by
          refine if_neg ?_
          rintro ⟨rfl, rfl, hLeads⟩
          exact hNone [] (e :: rest) rfl (List.cons_ne_nil _ _) rfl hLeads
        rw [hStep]
        refine ih fun pre post hSplit hMore hNothing => ?_
        exact hNone (c :: pre) post (by rw [hSplit]; rfl) hMore hNothing

theorem shape_lead_more (hMore : post ≠ []) (hNothing : reduce stack pre = [])
    (hLeads : Leads lead post) :
    lead < (shape lead stack (pre ++ [] :: post)).lead := by
  induction pre generalizing stack with
  | nil =>
    obtain rfl : stack = [] := hNothing
    obtain ⟨e, rest, rfl⟩ := List.exists_cons_of_ne_nil hMore
    have hStep : leadStep lead [] [] (e :: rest) = lead + 1 := if_pos ⟨rfl, rfl, hLeads⟩
    rw [List.nil_append, shape, if_neg (by simp [reduceStep]), hStep]
    exact le_shape_lead _ _ _
  | cons c pre ih =>
    obtain ⟨e, rest, hRest⟩ := List.exists_cons_of_ne_nil (l := pre ++ [] :: post) (by simp)
    have hTwo : e :: rest ≠ [[]] := by
      rw [← hRest]
      intro h
      have hLength := congrArg List.length h
      have hPost := List.length_pos_of_ne_nil hMore
      simp only [List.length_append, List.length_cons, List.length_nil] at hLength
      omega
    rw [List.cons_append, hRest, shape, if_neg (fun h => hTwo h.1), ← hRest]
    rcases Nat.lt_or_ge lead (leadStep lead stack c (pre ++ [] :: post)) with hLess | hSame
    · exact Nat.lt_of_lt_of_le hLess (le_shape_lead _ _ _)
    · have hStep := Nat.le_antisymm hSame (le_leadStep lead stack c (pre ++ [] :: post))
      rw [hStep]
      exact ih hNothing

/-- Components that take each other away put nothing into the buffer. -/
theorem shape_skip (hMore : rest ≠ []) (hNothing : reduce stack pre = [])
    (hNone : ∀ pre' post, pre = pre' ++ [] :: post → reduce stack pre' ≠ []) :
    shape 0 stack (pre ++ rest) = shape 0 [] rest := by
  induction pre generalizing stack with
  | nil =>
    obtain rfl : stack = [] := hNothing
    rfl
  | cons c pre ih =>
    obtain ⟨e, tail, hRest⟩ := List.exists_cons_of_ne_nil (l := pre ++ rest) (by simp [hMore])
    have hKept : ¬ (e :: tail = [[]] ∧ reduceStep stack c = c :: stack ∧ c.getLast? ≠ some 58) := by
      rintro ⟨hEnd, hPush, -⟩
      obtain rfl : pre = [] := by
        rw [← hRest] at hEnd
        have hLength := congrArg List.length hEnd
        have hPos := List.length_pos_of_ne_nil hMore
        rw [List.length_append, List.length_singleton] at hLength
        exact List.length_eq_zero_iff.1 (by omega)
      have hNil : reduceStep stack c = [] := hNothing
      rw [hPush] at hNil
      cases hNil
    have hStep : leadStep 0 stack c (e :: tail) = 0 := by
      refine if_neg ?_
      rintro ⟨rfl, rfl, -⟩
      exact hNone [] pre rfl rfl
    rw [List.cons_append, hRest, shape, if_neg hKept, hStep, ← hRest]
    refine ih hNothing fun pre' post hSplit => ?_
    exact hNone (c :: pre') post (by rw [hSplit]; rfl)

/-- What is put into the buffer above `base` leads as far as the components. -/
theorem shape_above (hSome : cs ≠ []) (hClean : Clean (up ++ base)) (hFree : ∀ c ∈ cs, Free c)
    (hNever : ∀ mid rest, cs = mid ++ rest → rest ≠ [] → ∃ u, reduce (up ++ base) mid = u ++ base) :
    ∃ u, (shape lead (up ++ base) cs).stack = u ++ base ∧
      ∀ dir, resolve dir (u.reverse ++ [(shape lead (up ++ base) cs).tail]) =
        resolve dir (up.reverse ++ cs) := by
  induction cs generalizing lead up with
  | nil => exact absurd rfl hSome
  | cons c cs ih =>
    rcases cs with - | ⟨e, rest⟩
    · exact ⟨up, rfl, fun _ => rfl⟩
    · rw [shape]
      split
      · rename_i hTrim
        refine ⟨up, rfl, fun dir => ?_⟩
        rw [hTrim.1, resolve_append, resolve_append]
        rfl
      · obtain ⟨v, hv⟩ := hNever [c] (e :: rest) rfl (List.cons_ne_nil _ _)
        have hStep : reduceStep (up ++ base) c = v ++ base := hv
        have hHead := hFree c List.mem_cons_self
        rw [hStep]
        have hCleanStep : Clean (v ++ base) := by
          rw [← hStep]
          exact hClean.reduceStep hHead
        have hNeverStep : ∀ mid rest', e :: rest = mid ++ rest' → rest' ≠ [] →
            ∃ w, reduce (v ++ base) mid = w ++ base := by
          intro mid rest' hSplit hMore
          obtain ⟨w, hw⟩ := hNever (c :: mid) rest' (by rw [hSplit]; rfl) hMore
          refine ⟨w, ?_⟩
          rw [← hStep]
          exact hw
        obtain ⟨u, hStack, hResolve⟩ := ih (List.cons_ne_nil _ _) hCleanStep
          (fun d hd => hFree d (List.mem_cons_of_mem _ hd)) hNeverStep
        refine ⟨u, hStack, fun dir => ?_⟩
        rw [hResolve, resolve_append, resolve_append, resolve_reduceStep hClean hStep]
        rfl

theorem markStack_concat (up : List Text) (c : Text) : markStack 0 (up ++ [c]) = up ++
    [capital c] := by
  induction up with
  | nil => rfl
  | cons e up ih =>
    have hFull : full 0 (up ++ [c]) ≠ [] := by
      intro h
      exact absurd (full_eq_nil.1 h).2 (by simp)
    show mark 0 (up ++ [c]) e :: markStack 0 (up ++ [c]) = _
    rw [ih, mark, if_neg hFull]
    rfl

theorem markStack_lead (hLead : lead ≠ 0) (stack : List Text) : markStack lead stack = stack := by
  induction stack with
  | nil => rfl
  | cons e stack ih =>
    show mark lead stack e :: markStack lead stack = _
    rw [ih, mark, if_neg (fun h => hLead (full_eq_nil.1 h).1)]

theorem Steady.plain (hSteady : Steady c post) (hMore : post ≠ []) : c ≠ [] ∧ c ≠ [46] := by
  have hFirst := hSteady [] post rfl hMore
  constructor
  · rintro rfl
    exact hFirst rfl
  · rintro rfl
    exact hFirst rfl

theorem reduceStep_nil (hPlain : c ≠ [] ∧ c ≠ [46]) : reduceStep [] c = [c] := by
  unfold reduceStep
  rw [if_neg (not_or.2 hPlain)]
  split
  · rfl
  · rfl

/-- The components of the form, when the first component of the name stays. -/
theorem components_steady (hSteady : Steady c post) (hFree : ∀ d ∈ c :: post, Free d) :
    ∃ post', (shape 0 [] (c :: post)).marked.components = capital c :: post' ∧
      (inDrive c = [] → (post' = [] ↔ post = [])) ∧ ∀ dir,
        resolve dir post' = resolve dir post := by
  rcases post with - | ⟨e, rest⟩
  · exact ⟨[], rfl, fun _ => Iff.rfl, fun _ => rfl⟩
  · have hPlain := hSteady.plain (List.cons_ne_nil _ _)
    have hLead : (shape 0 [] (c :: e :: rest)).lead = 0 := by
      refine shape_lead_same fun pre post hSplit hMore hNothing => ?_
      rcases pre with - | ⟨p, pre⟩
      · exact absurd (List.cons.inj hSplit).1 hPlain.1
      · obtain ⟨rfl, hRest⟩ := List.cons.inj hSplit
        exact absurd hNothing (hSteady pre ([] :: post) hRest (List.cons_ne_nil _ _))
    have hClean : Clean ([] ++ [c]) := List.forall_mem_cons.2
      ⟨⟨hPlain.1, hPlain.2, hFree c List.mem_cons_self⟩, fun d hd => absurd hd List.not_mem_nil⟩
    have hTail : ∀ d ∈ e :: rest, Free d := fun d hd => hFree d (List.mem_cons_of_mem _ hd)
    have hNever : ∀ mid rest', e :: rest = mid ++ rest' → rest' ≠ [] →
        ∃ u, reduce ([] ++ [c]) mid = u ++ [c] := by
      intro mid rest' hSplit hMore
      refine stays_below (fun mid rest' hSplit hMore => ?_) hSplit hMore
      have hSome := hSteady mid rest' hSplit hMore
      rwa [show c :: mid = [c] ++ mid from rfl, reduce_append, show reduce [] [c] = [] ++ [c] from
        reduceStep_nil hPlain] at hSome
    by_cases hTrim : e :: rest = [[]] ∧ c.getLast? ≠ some 58
    · -- the separator behind the only component is left out
      refine ⟨[], ?_, fun hRoot => ?_, fun dir => ?_⟩
      · rw [shape, if_pos ⟨hTrim.1, reduceStep_nil hPlain, hTrim.2⟩]
        rfl
      · exact absurd (getLast_of_inDrive hPlain.1 hRoot) hTrim.2
      · rw [hTrim.1]
        rfl
    · have hShape : shape 0 [] (c :: e :: rest) = shape 0 ([] ++ [c]) (e :: rest) := by
        rw [shape, reduceStep_nil hPlain, if_neg (fun h => hTrim ⟨h.1, h.2.2⟩)]
        simp [leadStep, hPlain.1]
      obtain ⟨u, hStack, hResolve⟩ :=
        @shape_above 0 _ _ _ (List.cons_ne_nil _ _) hClean hTail hNever
      rw [← hShape] at hStack hResolve
      have hFull : full 0 (u ++ [c]) ≠ [] := by
        intro h
        exact absurd (full_eq_nil.1 h).2 (by simp)
      refine ⟨u.reverse ++ [(shape 0 [] (c :: e :: rest)).tail], ?_, fun _ => by simp, hResolve⟩
      rw [Shape.components, Shape.marked]
      simp only [hLead, hStack, markStack_concat]
      rw [mark, if_neg hFull]
      simp

/-! ## The end of the name -/

/-- The last component is left out when it is empty and the one before it stays, without a colon at
its end. -/
theorem shape_end (lead : Nat) (stack front : List Text) (c : Text) :
    ((shape lead stack (front ++ [c])).tail = c ∧
      (shape lead stack (front ++ [c])).stack = reduce stack front ∧
      ∀ front' d, c = [] → front = front' ++ [d] → reduce stack front = d :: reduce stack front' →
        d.getLast? = some 58) ∨
    c = [] ∧ ∃ front' d, front = front' ++ [d] ∧ reduce stack front = d :: reduce stack front' ∧
      (shape lead stack (front ++ [c])).tail = d := by
  induction front generalizing lead stack with
  | nil =>
    refine .inl ⟨rfl, rfl, fun front' d _ hFront _ => ?_⟩
    exact absurd hFront (by simp)
  | cons p front ih =>
    obtain ⟨e, rest, hRest⟩ := List.exists_cons_of_ne_nil (l := front ++ [c]) (by simp)
    by_cases hTrim : e :: rest = [[]] ∧ reduceStep stack p = p :: stack ∧ p.getLast? ≠ some 58
    · right
      obtain ⟨hEnd, hPush, -⟩ := id hTrim
      rw [← hRest] at hEnd
      obtain ⟨rfl, rfl⟩ : front = [] ∧ c = [] := by
        rcases front with - | ⟨q, front⟩
        · exact ⟨rfl, (List.cons.inj hEnd).1⟩
        · simp at hEnd
      refine ⟨rfl, [], p, rfl, hPush, ?_⟩
      rw [List.cons_append, hRest, shape, if_pos hTrim]
    · rw [List.cons_append, hRest, shape, if_neg hTrim, ← hRest]
      rcases ih (leadStep lead stack p (front ++ [c])) (reduceStep stack p) with
        ⟨hTail, hStack, hColon⟩ | ⟨hNil, front', d, hFront, hPush, hTail⟩
      · refine .inl ⟨hTail, hStack, fun front' d hNil hFront hPush => ?_⟩
        rcases front' with - | ⟨q, front'⟩
        · obtain ⟨rfl, rfl⟩ := List.cons.inj hFront
          by_contra hNot
          refine hTrim ⟨?_, hPush, hNot⟩
          rw [← hRest, hNil]
          rfl
        · obtain ⟨rfl, rfl⟩ := List.cons.inj hFront
          exact hColon front' d hNil rfl hPush
      · refine .inr ⟨hNil, p :: front', d, ?_, hPush, hTail⟩
        rw [hFront]
        rfl

theorem push_ne_nil (hClean : Clean (c :: stack)) : c ≠ [] := (hClean c List.mem_cons_self).1

theorem two_le_end (hSplit : cs ++ [[]] = pre ++ [] :: post) (hMore : post ≠ []) :
    post ≠ [[]] ↔ 2 ≤ post.length := by
  constructor
  · intro hTwo
    rcases post with - | ⟨e, - | ⟨d, post⟩⟩
    · exact absurd rfl hMore
    · have hLast := congrArg List.getLast? hSplit
      simp only [List.getLast?_append, List.getLast?_cons_cons,
        List.getLast?_singleton, Option.some_or, Option.some.injEq] at hLast
      exact absurd (congrArg (· :: []) hLast.symm) hTwo
    · simp
  · rintro hTwo rfl
    exact absurd hTwo (by decide)

theorem gap_mono {k l : Nat} (hLe : k ≤ l) (h : Gap l cs) : Gap k cs := by
  obtain ⟨pre, post, hSplit, hSome, hNothing, hLength⟩ := h
  exact ⟨pre, post, hSplit, hSome, hNothing, hLe.trans hLength⟩

theorem lead_unrooted (hFirst : first ≠ []) (hGap : ¬ Gap 1 (first :: rest)) :
    (shape 0 [] (first :: rest)).lead = 0 := by
  refine shape_lead_same fun pre post hSplit hMore hNothing => ?_
  rcases pre with - | ⟨p, pre⟩
  · exact absurd (List.cons.inj hSplit).1 hFirst
  · exact absurd ⟨p :: pre, post, hSplit, List.cons_ne_nil _ _, hNothing,
      List.length_pos_of_ne_nil hMore⟩ hGap

theorem shape_rooted (hMore : rest ≠ []) : shape 0 [] ([] :: rest) = shape 1 [] rest := by
  obtain ⟨e, rest, rfl⟩ := List.exists_cons_of_ne_nil hMore
  simp [shape, reduceStep, leadStep]

/-- At most one separator comes first when no empty component is left over. -/
theorem lead_le_one_iff (hRoot : first = [] ∨ ¬ Gap 1 (first :: rest))
    (hEnd : first :: rest = cs ++ [[]]) :
    (shape 0 [] (first :: rest)).lead ≤ 1 ↔ ¬ Gap 2 (first :: rest) := by
  by_cases hFirst : first = []
  · subst hFirst
    rcases cs with - | ⟨c, cs⟩
    · obtain ⟨-, rfl⟩ := List.cons.inj hEnd
      refine iff_of_true (Nat.zero_le 1) ?_
      rintro ⟨pre, post, hSplit, hSome, -, -⟩
      have hLength := congrArg List.length hSplit
      have hPos := List.length_pos_of_ne_nil hSome
      simp only [List.length_append, List.length_cons, List.length_nil] at hLength
      omega
    · obtain ⟨rfl, rfl⟩ := List.cons.inj hEnd
      rw [shape_rooted (by simp)]
      constructor
      · rintro hOne ⟨pre, post, hSplit, hSome, hNothing, hLength⟩
        rcases pre with - | ⟨p, pre⟩
        · exact hSome rfl
        · obtain ⟨rfl, hRest⟩ := List.cons.inj hSplit
          have hMore : post ≠ [] := List.ne_nil_of_length_pos (by omega)
          have hLeads : Leads 1 post := .inr ⟨rfl, (two_le_end hRest hMore).2 hLength⟩
          have hLess : 1 < (shape 1 [] (pre ++ [] :: post)).lead :=
            shape_lead_more hMore hNothing hLeads
          have hOne : (shape 1 [] (pre ++ [] :: post)).lead ≤ 1 := by
            rw [show pre ++ [] :: post = cs ++ [[]] from hRest.symm]
            exact hOne
          omega
      · intro hGap
        refine le_of_eq (shape_lead_same fun pre post hSplit hMore hNothing => ?_)
        rintro (hZero | ⟨-, hTwo⟩)
        · exact absurd hZero Nat.one_ne_zero
        · refine hGap ⟨[] :: pre, post, by rw [hSplit]; rfl, List.cons_ne_nil _ _, hNothing, ?_⟩
          exact (two_le_end hSplit hMore).1 hTwo
  · have hNone := hRoot.resolve_left hFirst
    rw [lead_unrooted hFirst hNone]
    exact iff_of_true (Nat.zero_le 1) fun hGap => hNone (gap_mono (by decide) hGap)

theorem closed_iff (hFree : ∀ c ∈ first :: rest, Free c)
    (hRoot : first = [] ∨ ¬ Gap 1 (first :: rest)) :
    Closed (shape 0 [] (first :: rest)) ↔
      ∀ front, first :: rest = front ++ [[]] →
        match reduce [] front with
        | [] => ¬ Gap 2 (first :: rest)
        | top :: _ => top.getLast? = some 58 ∨
            ∃ front' c, front = front' ++ [c] ∧ reduce [] front = c :: reduce [] front' := by
  have hClean : ∀ front c, first :: rest = front ++ [c] → Clean (reduce [] front) := by
    intro front c hEnd
    refine Clean.reduce (fun d hd => absurd hd List.not_mem_nil) fun d hd => hFree d ?_
    rw [hEnd]
    exact List.mem_append_left _ hd
  constructor
  · intro hClosed front hEnd
    have hShape := shape_end 0 [] front []
    rw [← hEnd] at hShape
    -- the last component is gone, or stays open
    rcases hShape with ⟨hTail, hStack, -⟩ | ⟨-, front', c, hFront, hPush, -⟩
    · have hLast := hClosed hTail
      rw [hStack] at hLast
      split
      · rename_i hNil
        rw [hNil] at hLast
        exact (lead_le_one_iff hRoot hEnd).1 hLast
      · rename_i top below hTop
        rw [hTop] at hLast
        exact .inl hLast
    · rw [hPush]
      exact .inr ⟨front', c, hFront, rfl⟩
  · intro hAll hTail
    obtain ⟨front, c, hEnd⟩ : ∃ front c, first :: rest = front ++ [c] :=
      ⟨_, _, (List.dropLast_append_getLast (List.cons_ne_nil first rest)).symm⟩
    have hShape := shape_end 0 [] front c
    rw [← hEnd, hTail] at hShape
    rcases hShape with ⟨rfl, hStack, hColon⟩ | ⟨-, front', d, hFront, hPush, rfl⟩
    · have hCase := hAll front hEnd
      rw [hStack]
      split
      · rename_i hNil
        rw [hNil] at hCase
        exact (lead_le_one_iff hRoot hEnd).2 hCase
      · rename_i top below hTop
        rw [hTop] at hCase
        rcases hCase with hLast | ⟨front', d, hFront, hPush⟩
        · exact hLast
        · rw [(List.cons.inj hPush).1]
          exact hColon front' d rfl hFront (hTop.trans hPush)
    · have hSome := hClean front c hEnd
      rw [hPush] at hSome
      exact absurd rfl (push_ne_nil hSome)

/-! ## The beginning of the name -/

/-- What names the same location, in the same way. -/
def Same (s t : Text) : Prop :=
  isAbsolutePath s = isAbsolutePath t ∧ ∀ start, locate start s = locate start t

theorem clean_nil : Clean [] := fun _ hc => absurd hc List.not_mem_nil

theorem resolve_empty (n : Nat) (dir : List Text) : resolve dir (List.replicate n []) = dir := by
  induction n generalizing dir with
  | zero => rfl
  | succ n ih => exact ih dir

theorem replicate_components (sh : Shape) (hLead : sh.lead ≠ 0) :
    sh.marked.components =
      [] :: (List.replicate (sh.lead - 1) [] ++ sh.stack.reverse ++ [sh.tail]) := by
  have hFull : full sh.lead sh.stack ≠ [] := fun h => hLead (full_eq_nil.1 h).1
  obtain ⟨n, hn⟩ : ∃ n, sh.lead = n + 1 := ⟨sh.lead - 1, by omega⟩
  rw [Shape.components, Shape.marked]
  simp only [markStack_lead hLead, mark, if_neg hFull]
  rw [hn, List.replicate_succ]
  rfl

/-- A name that begins with a separator, or has no separator at all, keeps its location. -/
theorem same_rooted (hName : components s = [] :: rest) : Same (canonicPathMapFileName s) s := by
  have hForm := components_canonic s
  have hFree : ∀ c ∈ [] :: rest, Free c := by
    rw [← hName]
    exact fun _ hc => free_of_mem hc
  rw [hName] at hForm
  by_cases hMore : rest = []
  · subst hMore
    obtain ⟨rfl, -⟩ := components_single hName
    exact ⟨rfl, fun _ => rfl⟩
  · have hLead : (shape 0 [] ([] :: rest)).lead ≠ 0 := by
      have hLess := le_shape_lead 1 [] rest
      rw [shape_rooted hMore]
      omega
    obtain ⟨u, hStack, hResolve⟩ :=
      @shape_above 0 [] [] ([] :: rest) (List.cons_ne_nil _ _) clean_nil hFree
      fun mid _ _ _ => ⟨reduce [] mid, (List.append_nil _).symm⟩
    rw [List.nil_append, List.append_nil] at hStack
    rw [replicate_components _ hLead] at hForm
    constructor
    · rw [Bool.eq_iff_iff, isAbsolutePath_cons hForm, isAbsolutePath_cons hName]
      simp [hMore]
    · intro start
      rw [locate_cons start hForm, locate_cons start hName]
      simp only [inDrive, driveOf, hMore, ne_eq, not_false_eq_true, and_self, if_true]
      have hTail :
        resolve [] ([] :: rest) = resolve [] (u.reverse ++ [(shape 0 [] ([] :: rest)).tail]) :=
        (hResolve []).symm
      rw [if_pos (by simp), hTail, hStack]
      show (none, resolve [] (List.replicate _ [] ++ u.reverse ++ [_])) = _
      rw [List.append_assoc, resolve_append, resolve_empty]

/-- A separator that was inside of the name and comes first makes the name another one. -/
theorem gap_not_same (hFirst : first ≠ []) (hName : components s = first :: rest)
    (hGap : Gap 1 (first :: rest)) : ¬ Same (canonicPathMapFileName s) s := by
  rintro ⟨hAbsolute, hLocation⟩
  obtain ⟨pre, post, hSplit, hSome, hNothing, hLength⟩ := hGap
  have hForm := components_canonic s
  have hLead : (shape 0 [] (first :: rest)).lead ≠ 0 := by
    have hLess : 0 < (shape 0 [] (pre ++ [] :: post)).lead :=
      shape_lead_more (List.ne_nil_of_length_pos hLength) hNothing (.inl rfl)
    rw [hSplit]
    omega
  rw [hName, replicate_components _ hLead] at hForm
  have hForm_absolute : isAbsolutePath (canonicPathMapFileName s) = true :=
    (isAbsolutePath_cons hForm).2 ⟨rfl, by simp⟩
  rw [hAbsolute, isAbsolutePath_cons hName] at hForm_absolute
  have hDrive := congrArg Prod.fst (hLocation fun _ => [])
  rw [locate_cons _ hForm, locate_cons _ hName] at hDrive
  have hNone : driveOf first = none := hDrive.symm
  exact hFirst ((inDrive_none hNone).symm.trans hForm_absolute.1)

/-- The first component that stays is the first one of the form. -/
theorem components_cut (hName : components s = first :: rest) {pre post : List Text}
    (hCut : first :: rest = pre ++ c :: post) (hNothing : reduce [] pre = [])
    (hFirst : first ≠ []) (hGap : ¬ Gap 1 (first :: rest)) (hSteady : Steady c post) :
    ∃ post', components (canonicPathMapFileName s) = capital c :: post' ∧
      (inDrive c = [] → (post' = [] ↔ post = [])) ∧ ∀ dir,
        resolve dir post' = resolve dir post := by
  have hFree : ∀ d ∈ first :: rest, Free d := by
    rw [← hName]
    exact fun _ hd => free_of_mem hd
  have hSkip : shape 0 [] (first :: rest) = shape 0 [] (c :: post) := by
    rw [hCut]
    refine shape_skip (List.cons_ne_nil _ _) hNothing fun pre' post' hSplit hNil => ?_
    rcases pre' with - | ⟨p, pre'⟩
    · rw [hSplit] at hCut
      exact hFirst (List.cons.inj hCut).1
    · refine hGap ⟨p :: pre', post' ++ c :: post, ?_, List.cons_ne_nil _ _, hNil, by simp; omega⟩
      rw [hCut, hSplit]
      simp
  rw [components_canonic, hName, hSkip]
  refine components_steady hSteady fun d hd => hFree d ?_
  rw [hCut]
  exact List.mem_append_right _ hd

/-- A name whose first component stays keeps its location. -/
theorem same_steady (hFirst : first ≠ []) (hName : components s = first :: rest)
    (hGap : ¬ Gap 1 (first :: rest)) (hSteady : Steady first rest) :
    Same (canonicPathMapFileName s) s := by
  have hCut : first :: rest = [] ++ first :: rest := rfl
  obtain ⟨post', hForm, hEmpty, hResolve⟩ := components_cut hName hCut rfl hFirst hGap hSteady
  obtain ⟨hDrive, hInDrive⟩ := drive_capital first
  have hRoot : inDrive first = [] ∧ post' ≠ [] ↔ inDrive first = [] ∧ rest ≠ [] :=
    and_congr_right fun hRoot => not_congr (hEmpty hRoot)
  constructor
  · rw [Bool.eq_iff_iff, isAbsolutePath_cons hForm, isAbsolutePath_cons hName, hInDrive]
    exact hRoot
  · intro start
    rw [locate_cons start hForm, locate_cons start hName, hDrive, hInDrive]
    simp only [hRoot]
    congr 1
    exact hResolve _

theorem no_dots (hDots : c ≠ [46, 46]) (hSettled : Settled (u ++ [c])) : [46, 46] ∉ u := by
  induction u with
  | nil => exact List.not_mem_nil
  | cons d u ih =>
    intro hMem
    have hBelow := ih hSettled.2
    rcases List.mem_cons.1 hMem with rfl | hMem
    · have hPush : reduceStep (u ++ [c]) [46, 46] = [46, 46] :: (u ++ [c]) := hSettled.1
      obtain ⟨top, below, hTop⟩ := List.exists_cons_of_ne_nil (l := u ++ [c]) (by simp)
      have hNot : top ≠ [46, 46] := by
        rintro rfl
        rcases u with - | ⟨v, u⟩
        · exact hDots (List.cons.inj hTop).1
        · exact hBelow (by rw [(List.cons.inj hTop).1]; exact List.mem_cons_self)
      rw [hTop] at hPush
      have hLength := congrArg List.length hPush
      simp [reduceStep, hNot] at hLength
      omega
    · exact hBelow hMem

theorem resolve_plain (hClean : Clean u) (hDots : [46, 46] ∉ u) :
    resolve dir u.reverse = u ++ dir := by
  induction u with
  | nil => rfl
  | cons d u ih =>
    obtain ⟨hSome, hDot, -⟩ := hClean d List.mem_cons_self
    rw [List.reverse_cons, resolve_append,
      ih (List.forall_mem_cons.1 hClean).2 fun h => hDots (List.mem_cons_of_mem _ h)]
    show enter (u ++ dir) d = _
    rw [enter, if_neg (not_or.2 ⟨hSome, hDot⟩),
      if_neg (fun h => hDots (by rw [h]; exact List.mem_cons_self))]
    rfl

/-- Where a designation of a drive leads to, and then one up. -/
def reach (dir : List Text) (c : Text) : List Text := (enter (if c = [] then [] else dir) c).tail

theorem enter_plain (h : Plain c) : enter dir c = c :: dir := by
  rw [enter, if_neg (not_or.2 ⟨h.1, h.2.1⟩), if_neg h.2.2]

theorem plain_or (c : Text) : c = [] ∨ c = [46] ∨ c = [46, 46] ∨ Plain c := by
  by_cases hNil : c = []
  · exact .inl hNil
  · by_cases hDot : c = [46]
    · exact .inr (.inl hDot)
    · by_cases hDots : c = [46, 46]
      · exact .inr (.inr (.inl hDots))
      · exact .inr (.inr (.inr ⟨hNil, hDot, hDots⟩))

theorem reach_plain (h : Plain c) : reach dir c = dir := by
  rw [reach, if_neg h.1, enter_plain h]
  rfl

variable {d : Text}

theorem reach_eq_iff :
    (∀ dir, reach dir c = reach dir d) ↔ c = d ∨ Plain c ∧ Plain d := by
  constructor
  · intro hAll
    have hLength := congrArg List.length (hAll [[], [], []])
    rcases plain_or c with rfl | rfl | rfl | hc
    · rcases plain_or d with rfl | rfl | rfl | hd
      · exact .inl rfl
      · exact absurd hLength (by decide)
      · exact absurd hLength (by decide)
      · rw [reach_plain hd] at hLength
        exact absurd hLength (by decide)
    · rcases plain_or d with rfl | rfl | rfl | hd
      · exact absurd hLength (by decide)
      · exact .inl rfl
      · exact absurd hLength (by decide)
      · rw [reach_plain hd] at hLength
        exact absurd hLength (by decide)
    · rcases plain_or d with rfl | rfl | rfl | hd
      · exact absurd hLength (by decide)
      · exact absurd hLength (by decide)
      · exact .inl rfl
      · rw [reach_plain hd] at hLength
        exact absurd hLength (by decide)
    · rw [reach_plain hc] at hLength
      rcases plain_or d with rfl | rfl | rfl | hd
      · exact absurd hLength (by decide)
      · exact absurd hLength (by decide)
      · exact absurd hLength (by decide)
      · exact .inr ⟨hc, hd⟩
  · rintro (rfl | ⟨hc, hd⟩) dir
    · rfl
    · rw [reach_plain hc, reach_plain hd]

theorem reach_nil (c : Text) : reach [] c = [] := by
  rw [reach, ite_self, enter]
  split
  · rfl
  · split
    · rfl
    · rfl

/-- What is above a component at the end, over any directory. -/
theorem resolve_over (hPlain : Plain c) (hFree : ∀ d ∈ c :: post, Free d) (hSteady : Steady c post)
    (hStays : reduce [] (c :: post) ≠ []) : ∃ u, ∀ dir, resolve dir post = u ++ dir := by
  have hStep : reduceStep [] c = [] ++ [c] := reduceStep_nil ⟨hPlain.1, hPlain.2.1⟩
  have hReduce : ∀ cs, reduce [] (c :: cs) = reduce ([] ++ [c]) cs := by
    intro cs
    rw [← hStep]
    rfl
  have hClean : Clean ([] ++ [c]) :=
    List.forall_mem_cons.2 ⟨⟨hPlain.1, hPlain.2.1, hFree c List.mem_cons_self⟩, clean_nil⟩
  have hFreePost : ∀ d ∈ post, Free d := fun d hd => hFree d (List.mem_cons_of_mem _ hd)
  have hNever : ∀ mid rest, post ++ [[]] = mid ++ rest → rest ≠ [] →
    reduce ([] ++ [c]) mid ≠ [] := by
    intro mid rest hSplit hSome
    obtain ⟨front, last, rfl⟩ : ∃ front last, rest = front ++ [last] :=
      ⟨_, _, (List.dropLast_append_getLast hSome).symm⟩
    rw [← List.append_assoc] at hSplit
    have hPost : post = mid ++ front := (List.append_inj' hSplit rfl).1
    rw [← hReduce]
    by_cases hFront : front = []
    · rw [hFront, List.append_nil] at hPost
      rwa [← hPost]
    · exact hSteady mid front hPost hFront
  have hBelow : ∀ mid rest, post = mid ++ rest → ∃ u, reduce ([] ++ [c]) mid = u ++ [c] := by
    intro mid rest hSplit
    have hLonger : post ++ [[]] = mid ++ (rest ++ [[]]) := by rw [hSplit, List.append_assoc]
    exact stays_below hNever hLonger (by simp)
  obtain ⟨u, hu⟩ := hBelow post [] (List.append_nil _).symm
  have hSettled : Settled ([] ++ [c]) := ⟨hStep, trivial⟩
  have hSettledAll := hSettled.reduce post
  have hCleanAll := hClean.reduce hFreePost
  rw [hu] at hSettledAll hCleanAll
  refine ⟨u, fun dir => ?_⟩
  have hAbove : resolve dir u.reverse = resolve dir ([].reverse ++ post) :=
    resolve_above hClean hFreePost hBelow hu
  rw [resolve_plain (fun d hd => hCleanAll d (List.mem_append_left _ hd))
    (no_dots hPlain.2.2 hSettledAll)] at hAbove
  exact hAbove.symm

/-! ## Components that come first after others that are gone -/

/-- The first component and those of `pre` are gone when `c` comes, which stays. -/
structure Cut (s first : Text) (pre : List Text) (c : Text) (post : List Text) : Prop where
  name    : components s = first :: (pre ++ c :: post)
  some    : first ≠ []
  noGap   : ¬ Gap 1 (first :: (pre ++ c :: post))
  nothing : reduce [] (first :: pre) = []
  steady  : Steady c post

variable (h : Cut s first pre c post)

include h

theorem Cut.free (hd : d ∈ first :: (pre ++ c :: post)) : Free d := by
  rw [← h.name] at hd
  exact free_of_mem hd

theorem Cut.free_pre (hd : d ∈ first :: pre) : Free d :=
  h.free (List.mem_append_left (c :: post) hd)

theorem Cut.free_post (hd : d ∈ c :: post) : Free d :=
  h.free (List.mem_append_right (first :: pre) hd)

theorem Cut.reduce_all : reduce [] (first :: (pre ++ c :: post)) = reduce [] (c :: post) := by
  show reduce [] ((first :: pre) ++ c :: post) = _
  rw [reduce_append, h.nothing]

theorem Cut.locate :
    locate start s = (driveOf first,
      resolve (resolve (if inDrive first = [] then [] else start (driveOf first))
        (inDrive first :: pre))
        (c :: post)) := by
  rw [locate_cons start h.name, ← resolve_append]
  simp

theorem Cut.absolute : isAbsolutePath s = true ↔ inDrive first = [] := by
  rw [isAbsolutePath_cons h.name]
  simp

theorem Cut.locate_canonic :
    PathNames.locate start (canonicPathMapFileName s) = (driveOf c,
      resolve (if inDrive c = [] ∧ post ≠ [] then [] else start (driveOf c))
        (inDrive c :: post)) := by
  obtain ⟨post', hForm, hEmpty, hResolve⟩ :=
    components_cut h.name rfl h.nothing h.some h.noGap h.steady
  obtain ⟨hDrive, hInDrive⟩ := drive_capital c
  have hRoot : inDrive c = [] ∧ post' ≠ [] ↔ inDrive c = [] ∧ post ≠ [] :=
    and_congr_right fun hRoot => not_congr (hEmpty hRoot)
  rw [locate_cons start hForm, hDrive, hInDrive]
  simp only [hRoot]
  congr 1
  exact hResolve _

theorem Cut.absolute_canonic :
    isAbsolutePath (canonicPathMapFileName s) = true ↔ inDrive c = [] ∧ post ≠ [] := by
  obtain ⟨post', hForm, hEmpty, -⟩ := components_cut h.name rfl h.nothing h.some h.noGap h.steady
  rw [isAbsolutePath_cons hForm, (drive_capital c).2]
  exact and_congr_right fun hRoot => not_congr (hEmpty hRoot)

/-- The drives are the same when the locations are. -/
theorem Cut.driveOf_eq (hSame : Same (canonicPathMapFileName s) s) : driveOf first = driveOf c := by
  have hFst := congrArg Prod.fst (hSame.2 fun _ => [])
  rw [h.locate, h.locate_canonic] at hFst
  exact hFst.symm

theorem Cut.same_none (hNone : driveOf first = none) (hDrives : driveOf first = driveOf c) :
    Same (canonicPathMapFileName s) s := by
  have hFirst := inDrive_none hNone
  have hC := inDrive_none (hDrives.symm.trans hNone)
  have hNotRoot : ¬ (c = [] ∧ post ≠ []) := fun hBoth => (h.steady.plain hBoth.2).1 hBoth.1
  constructor
  · rw [Bool.eq_iff_iff, h.absolute, h.absolute_canonic, hFirst, hC]
    exact iff_of_false hNotRoot h.some
  · intro start
    rw [h.locate, h.locate_canonic, hFirst, hC, if_neg h.some, if_neg hNotRoot,
      resolve_nothing h.nothing fun _ hd => h.free_pre hd, hDrives]

/-- What comes after a drive takes its component away. -/
theorem Cut.away (hDrive : driveOf first ≠ none) (dir : List Text) :
    resolve dir pre = dir.tail := by
  have hPlain := plain_drive hDrive
  have hStep : reduceStep [] first = [] ++ [first] := reduceStep_nil ⟨hPlain.1, hPlain.2.1⟩
  have hClean : Clean ([] ++ [first]) := List.forall_mem_cons.2
    ⟨⟨hPlain.1, hPlain.2.1, h.free_pre List.mem_cons_self⟩, clean_nil⟩
  have hRest : reduce ([] ++ [first]) pre = [] := by
    rw [← hStep]
    exact h.nothing
  exact resolve_away hClean hRest fun d hd => h.free_pre (List.mem_cons_of_mem _ hd)

theorem Cut.locate_drive (hDrive : driveOf first ≠ none) (start : Option UInt8 → List Text) :
    PathNames.locate start s =
      (driveOf first, resolve (reach (start (driveOf first)) (inDrive first)) (c :: post)) := by
  rw [h.locate]
  congr 2
  exact h.away hDrive _

/-- Both components are gone at the end. -/
theorem Cut.same_gone_iff (hDrive : driveOf first ≠ none) (hDrives : driveOf first = driveOf c)
    (hGone : reduce [] (c :: post) = []) :
    Same (canonicPathMapFileName s) s ↔
      inDrive first = inDrive c ∨ Plain (inDrive first) ∧ Plain (inDrive c) := by
  have hPlain := plain_drive fun hNone => hDrive (hDrives.trans hNone)
  have hStep : reduceStep [] c = [] ++ [c] := reduceStep_nil ⟨hPlain.1, hPlain.2.1⟩
  have hClean : Clean ([] ++ [c]) := List.forall_mem_cons.2
    ⟨⟨hPlain.1, hPlain.2.1, h.free_post List.mem_cons_self⟩, clean_nil⟩
  have hRest : reduce ([] ++ [c]) post = [] := by
    rw [← hStep]
    exact hGone
  have hPost : post ≠ [] := by
    rintro rfl
    cases hRest
  have hUp : ∀ dir, resolve dir post = dir.tail := fun dir =>
    resolve_away hClean hRest fun d hd => h.free_post (List.mem_cons_of_mem _ hd)
  have hOld : ∀ start, PathNames.locate start s =
      (driveOf first, reach (start (driveOf first)) (inDrive first)) := by
    intro start
    rw [h.locate_drive hDrive]
    show (_, resolve (enter _ c) post) = _
    rw [enter_plain hPlain, hUp]
    rfl
  have hNew : ∀ start, PathNames.locate start (canonicPathMapFileName s) =
      (driveOf c, reach (start (driveOf c)) (inDrive c)) := by
    intro start
    rw [h.locate_canonic]
    simp only [hPost, ne_eq, not_false_eq_true, and_true]
    congr 1
    exact hUp _
  rw [← reach_eq_iff]
  constructor
  · intro hSame dir
    have hBoth := hSame.2 fun _ => dir
    rw [hOld, hNew] at hBoth
    exact (congrArg Prod.snd hBoth).symm
  · intro hReach
    constructor
    · rw [Bool.eq_iff_iff, h.absolute, h.absolute_canonic]
      rcases reach_eq_iff.1 hReach with hEq | ⟨hLeft, hRight⟩
      · rw [hEq]
        exact and_iff_left hPost
      · exact iff_of_false (fun hBoth => hRight.1 hBoth.1) hLeft.1
    · intro start
      rw [hOld, hNew, hDrives, hReach]

/-- A component that is there at the end designates a drive in the form alone. -/
theorem Cut.not_same (hDrive : driveOf first ≠ none) (hDrives : driveOf first = driveOf c)
    (hStays : reduce [] (c :: post) ≠ []) : ¬ Same (canonicPathMapFileName s) s := by
  rintro ⟨-, hLocation⟩
  have hSome : driveOf c ≠ none := fun hNone => hDrive (hDrives.trans hNone)
  have hPlain := plain_drive hSome
  obtain ⟨u, hu⟩ := resolve_over hPlain (fun _ hd => h.free_post hd) h.steady hStays
  have hSnd := congrArg Prod.snd (hLocation fun _ => [])
  rw [h.locate_drive hDrive, h.locate_canonic] at hSnd
  have hLeft : resolve [] (inDrive c :: post) = u ++ enter [] (inDrive c) := hu _
  have hRight : resolve [] (c :: post) = u ++ enter [] c := hu _
  simp only [ite_self, reach_nil, hLeft, hRight, enter_plain hPlain] at hSnd
  have hEq := List.append_cancel_left hSnd
  obtain ⟨x, hx⟩ := Option.ne_none_iff_exists'.1 hSome
  obtain ⟨y, d, hc, -, hd⟩ := driveOf_eq_some hx
  rw [hd, hc, enter] at hEq
  split at hEq
  · cases hEq
  · split at hEq
    · cases hEq
    · have hLength := congrArg List.length (List.cons.inj hEq).1
      simp only [List.length_cons] at hLength
      omega

theorem Cut.same_iff :
    Same (canonicPathMapFileName s) s ↔ Agree first c (first :: (pre ++ c :: post)) := by
  by_cases hDrives : driveOf first = driveOf c
  · by_cases hNone : driveOf first = none
    · exact iff_of_true (h.same_none hNone hDrives) ⟨hDrives, .inl hNone⟩
    · by_cases hGone : reduce [] (c :: post) = []
      · rw [h.same_gone_iff hNone hDrives hGone]
        constructor
        · intro hKind
          exact ⟨hDrives, .inr ⟨h.reduce_all.trans hGone, hKind⟩⟩
        · rintro ⟨-, hAgree⟩
          exact (hAgree.resolve_left hNone).2
      · refine iff_of_false (h.not_same hNone hDrives hGone) ?_
        rintro ⟨-, hAgree⟩
        exact hGone (h.reduce_all.symm.trans (hAgree.resolve_left hNone).1)
  · exact iff_of_false (fun hSame => hDrives (h.driveOf_eq hSame)) fun hAgree => hDrives hAgree.1

end

/-! ## The names that have a canonic form -/

/-- When components at the beginning go, one comes first that stays. -/
theorem exists_cut {pre : List Text} {c : Text} {post : List Text} {cs : List Text}
    (hSplit : cs = pre ++ c :: post) (hNothing : reduce [] pre = []) (hSome : pre ≠ []) :
    ∃ pre c post, cs = pre ++ c :: post ∧ reduce [] pre = [] ∧ pre ≠ [] ∧ Steady c post := by
  induction hLength : post.length using Nat.strong_induction_on generalizing pre c post with
  | _ n ih =>
    by_cases hSteady : Steady c post
    · exact ⟨pre, c, post, hSplit, hNothing, hSome, hSteady⟩
    · simp only [Steady, not_forall, not_not] at hSteady
      obtain ⟨mid, rest, hPost, hMore, hGone⟩ := hSteady
      obtain ⟨d, rest, rfl⟩ := List.exists_cons_of_ne_nil hMore
      have hShorter : rest.length < n := by
        rw [← hLength, hPost]
        simp
        omega
      have hNext : cs = (pre ++ c :: mid) ++ d :: rest := by
        rw [hSplit, hPost]
        simp
      have hBefore : reduce [] (pre ++ c :: mid) = [] := by
        rw [reduce_append, hNothing, hGone]
      exact ih rest.length hShorter hNext hBefore (by simp) rfl

theorem same_iff {s first : Text} {rest : List Text} (hName : components s = first :: rest) :
    Same (canonicPathMapFileName s) s ↔
      (first = [] ∨ ¬ Gap 1 (first :: rest)) ∧
      (first = [] ∨ ∀ pre c post, rest = pre ++ c :: post → reduce [] (first :: pre) = [] →
        Steady c post → Agree first c (first :: rest)) := by
  by_cases hFirst : first = []
  · subst hFirst
    exact iff_of_true (same_rooted hName) ⟨.inl rfl, .inl rfl⟩
  · by_cases hGap : Gap 1 (first :: rest)
    · exact iff_of_false (gap_not_same hFirst hName hGap) fun hBoth =>
        hBoth.1.resolve_left hFirst hGap
    · have hCut : ∀ pre c post, rest = pre ++ c :: post → reduce [] (first :: pre) = [] →
          Steady c post →
          (Same (canonicPathMapFileName s) s ↔ Agree first c (first :: rest)) := by
        rintro pre c post rfl hNothing hSteady
        exact Cut.same_iff ⟨hName, hFirst, hGap, hNothing, hSteady⟩
      constructor
      · intro hSame
        refine ⟨.inr hGap, .inr fun pre c post hRest hNothing hSteady => ?_⟩
        exact (hCut pre c post hRest hNothing hSteady).1 hSame
      · rintro ⟨-, hAll⟩
        by_cases hSteady : Steady first rest
        · exact same_steady hFirst hName hGap hSteady
        · simp only [Steady, not_forall, not_not] at hSteady
          obtain ⟨mid, rest', hRest, hMore, hGone⟩ := hSteady
          obtain ⟨d, rest', rfl⟩ := List.exists_cons_of_ne_nil hMore
          have hSplit : first :: rest = (first :: mid) ++ d :: rest' := by rw [hRest]; rfl
          obtain ⟨pre, c, post, hAt, hNothing, hSome, hStays⟩ :=
            exists_cut hSplit hGone (List.cons_ne_nil _ _)
          obtain ⟨p, pre, rfl⟩ := List.exists_cons_of_ne_nil hSome
          obtain ⟨rfl, hRest⟩ := List.cons.inj hAt
          exact (hCut pre c post hRest hNothing hStays).2
            (hAll.resolve_left hFirst pre c post hRest hNothing hStays)

/-- `canonic_path_map_file_name` gives a canonic name exactly when the components that go at the
beginning of the name leave no separator, and no drive but the same, and none goes before a
separator at its end. -/
theorem canonic_iff (s : Text) :
    Canonic s ↔ ∃ first rest, components s = first :: rest ∧ Regular first rest := by
  obtain ⟨first, rest, hName⟩ := List.exists_cons_of_ne_nil (components_ne_nil s)
  have hFree : ∀ c ∈ first :: rest, Free c := by
    rw [← hName]
    exact fun _ hc => free_of_mem hc
  have hClosed := canonic_canonic_iff s
  rw [hName] at hClosed
  constructor
  · intro hCanonic
    obtain ⟨hRoot, hDrive⟩ := (same_iff hName).1 ⟨hCanonic.absolute, hCanonic.location⟩
    exact ⟨first, rest, hName, hRoot, hDrive,
      (closed_iff hFree hRoot).1 (hClosed.1 hCanonic.idempotent)⟩
  · rintro ⟨first', rest', hName', hRegular⟩
    obtain ⟨rfl, rfl⟩ := List.cons.inj (hName.symm.trans hName')
    obtain ⟨hAbsolute, hLocation⟩ := (same_iff hName).2 ⟨hRegular.root, hRegular.drive⟩
    exact ⟨hClosed.2 ((closed_iff hFree hRegular.root).2 hRegular.closed), canonic_noBackslash s,
      canonic_noDot s, canonic_noDouble s, hAbsolute, hLocation⟩

/-- Of `a//` the canonic form is `a/`, and of that it is `a`. -/
theorem not_canonic_double : ¬ Canonic [97, 47, 47] := by
  intro hCanonic
  exact absurd hCanonic.idempotent (by decide)

end TcfAgent.PathNames

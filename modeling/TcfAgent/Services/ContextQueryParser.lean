import TcfAgent.Services.ContextQueryGrammar

/-!
# The parser accepts the grammar, and a little more

`parse_context_query` reads every query of the grammar in which the values that start with a
digit are numbers. It also reads items that stand directly behind a closing quote.

Main results:

* `parseLoop_items`  — a sequence of items is read;
* `parseLoop_sound`  — the loop comes to an end, and nothing else is accepted;
* `separated_text`   — the text tells whether a delimiter is missing behind a closing quote;
* `recognised_iff`   — which texts the parser accepts exactly when they are in the grammar.
-/

namespace TcfAgent.ContextQuery

open TcfAgent.JsonText (Text isDigit ascii)

/-! ## The loop -/

namespace Items

/-- The parts that are published when the items have been read. -/
def publish : List (List Attribute) → List Attribute → Items → List (List Attribute)
  | attrs, attr, .last i => (i.attr :: attr) :: attrs
  | attrs, attr, .more i .slash rest => rest.publish ((i.attr :: attr) :: attrs) []
  | attrs, attr, .more i _ rest => rest.publish attrs (i.attr :: attr)

def count : Items → Nat
  | .last _ => 1
  | .more _ _ rest => rest.count + 1

/-- No `/` stands between the items. -/
def OnePart : Items → Prop
  | .last _ => True
  | .more _ .slash _ => False
  | .more _ _ rest => rest.OnePart

end Items

section

variable {absPath : Bool} {n : Nat} {attrs : List (List Attribute)} {attr : List Attribute}
  {a : Attribute} {q rest : Text} {r : Query × Option SyntaxError}

theorem missing_ne_nil (h : missing q = false) : ∃ c t, q = c :: t := by
  cases q with
  | nil => cases h
  | cons c t => exact ⟨c, t, rfl⟩

theorem parseLoop_error {e : SyntaxError} (hStart : missing q = false)
    (h : parseItem q = .error e) :
    parseLoop absPath (n + 1) attrs attr q = some (⟨attrs, absPath⟩, some e) := by
  obtain ⟨c, t, rfl⟩ := missing_ne_nil hStart
  simp only [parseLoop, h]

theorem parseLoop_slash (hStart : missing q = false) (h : parseItem q = .ok (a, 47 :: rest)) :
    parseLoop absPath (n + 1) attrs attr q =
      if missing rest then some (⟨(a :: attr) :: attrs, absPath⟩, some .item)
      else parseLoop absPath n ((a :: attr) :: attrs) [] rest := by
  obtain ⟨c, t, rfl⟩ := missing_ne_nil hStart
  simp only [parseLoop, h]

theorem parseLoop_comma (hStart : missing q = false) (h : parseItem q = .ok (a, 44 :: rest)) :
    parseLoop absPath (n + 1) attrs attr q =
      if missing rest then some (⟨attrs, absPath⟩, some .property)
      else parseLoop absPath n attrs (a :: attr) rest := by
  obtain ⟨c, t, rfl⟩ := missing_ne_nil hStart
  simp only [parseLoop, h]

/-- Nothing is checked where no delimiter stands behind an item. -/
theorem parseLoop_nothing (hStart : missing q = false) (h : parseItem q = .ok (a, rest))
    (hRest : rest = [] ∨ missing rest = false) :
    parseLoop absPath (n + 1) attrs attr q = parseLoop absPath n attrs (a :: attr) rest := by
  obtain ⟨c, t, rfl⟩ := missing_ne_nil hStart
  simp only [parseLoop, h]
  rcases hRest with rfl | hRest
  · rfl
  · obtain ⟨d, u, rfl⟩ := missing_ne_nil hRest
    have hd : d ≠ 47 ∧ d ≠ 44 := by
      constructor
      · rintro rfl
        cases hRest
      · rintro rfl
        cases hRest
    simp [hd]

@[simp] theorem parseLoop_end :
    parseLoop absPath n attrs (a :: attr) [] = some (⟨(a :: attr) :: attrs, absPath⟩, none) := by
  cases n <;> rfl

/-- Behind the last item of a part: the end, or the `/` before the next part. -/
def resume (absPath : Bool) (n : Nat) (attrs : List (List Attribute)) :
    Text → Option (Query × Option SyntaxError)
  | [] => some (⟨attrs, absPath⟩, none)
  | _ :: q =>
    if missing q then some (⟨attrs, absPath⟩, some .item) else parseLoop absPath n attrs [] q

variable {i : Item}

/-- What stands behind an item of a valid sequence. -/
theorem Items.stops {sep : Sep} {items : Items} (rest : Text)
    (hValid : (Items.more i sep items).Valid) : i.Stops (sep.text ++ (items.text ++ rest)) := by
  cases sep with
  | slash => exact ⟨fun _ => rfl, fun _ _ => rfl, by simp [Sep.text]⟩
  | comma => exact ⟨fun hItem => absurd hItem hValid.1, fun _ _ => rfl, by simp [Sep.text]⟩
  | nothing =>
    have hStart := items.text_head rest
    refine ⟨fun hItem => ?_, fun _ hQuote => absurd hValid.1 hQuote, fun hHead => ?_⟩
    · cases i with
      | string t => exact hItem.elim
      | property name value => exact hItem.elim
      | star => exact hValid.1.elim
      | starStar => exact hValid.1.elim
    · obtain ⟨c, u, hText⟩ := missing_ne_nil hStart
      rw [Sep.text, List.nil_append] at hHead
      rw [hText] at hHead hStart
      cases hHead
      cases hStart

theorem Item.stops_of_follows (h : follows [47] rest = true) : i.Stops rest :=
  ⟨fun _ => h, fun _ _ => follows_mono (by simp) h, follows_ne h⟩

/-- A sequence of items is read. -/
theorem parseLoop_items (items : Items) (hValid : items.Valid) (hPlain : items.Plain)
    (h : follows [47] rest = true) :
    parseLoop absPath (items.count + n) attrs attr (items.text ++ rest) =
      resume absPath n (items.publish attrs attr) rest := by
  induction items generalizing attrs attr with
  | last i =>
    have hRead := parseItem_text i hPlain (Item.stops_of_follows h)
    have hStart := i.text_head rest
    rw [Items.count, Nat.add_comm, Items.text]
    cases rest with
    | nil => rw [parseLoop_nothing hStart hRead (.inl rfl), parseLoop_end]; rfl
    | cons c rest =>
      obtain rfl : c = 47 := by simpa using h
      rw [parseLoop_slash hStart hRead]
      rfl
  | more i sep items ih =>
    have hRead := parseItem_text i hPlain.1 (Items.stops rest hValid)
    have hStart := i.text_head (sep.text ++ (items.text ++ rest))
    have hNext := items.text_head rest
    rw [Items.count, Nat.add_right_comm, Items.text, List.append_assoc, List.append_assoc]
    cases sep with
    | slash =>
      rw [parseLoop_slash hStart hRead]
      exact (if_neg (Bool.eq_false_iff.1 hNext)).trans (ih hValid hPlain.2)
    | comma =>
      rw [parseLoop_comma hStart hRead]
      exact (if_neg (Bool.eq_false_iff.1 hNext)).trans (ih hValid.2 hPlain.2)
    | nothing =>
      rw [parseLoop_nothing hStart hRead (.inr hNext)]
      exact ih hValid.2 hPlain.2

/-- A value that starts with a digit and is no number stops the loop. -/
theorem parseLoop_not_plain (items : Items) (hValid : items.Valid) (hPlain : ¬ items.Plain) :
    ∃ r e, parseLoop absPath (items.count + n) attrs attr items.text = some (r, some e) := by
  induction items generalizing attrs attr with
  | last i =>
    have hRead := parseItem_number i [] hPlain
    have hStart := i.text_head []
    rw [List.append_nil] at hRead hStart
    rw [Items.count, Nat.add_comm, Items.text]
    exact ⟨_, _, parseLoop_error hStart hRead⟩
  | more i sep items ih =>
    have hStart := i.text_head (sep.text ++ items.text)
    rw [Items.count, Nat.add_right_comm, Items.text]
    by_cases hItem : i.Plain
    · have hItems : ¬ items.Plain := fun h => hPlain ⟨hItem, h⟩
      have hStops := Items.stops [] hValid
      have hNext := items.text_head []
      rw [List.append_nil] at hStops hNext
      have hRead := parseItem_text i hItem hStops
      cases sep with
      | slash =>
        rw [parseLoop_slash hStart hRead]
        obtain ⟨r, e, hLoop⟩ := @ih ((i.attr :: attr) :: attrs) [] hValid hItems
        exact ⟨r, e, (if_neg (Bool.eq_false_iff.1 hNext)).trans hLoop⟩
      | comma =>
        rw [parseLoop_comma hStart hRead]
        obtain ⟨r, e, hLoop⟩ := @ih attrs (i.attr :: attr) hValid.2 hItems
        exact ⟨r, e, (if_neg (Bool.eq_false_iff.1 hNext)).trans hLoop⟩
      | nothing =>
        rw [parseLoop_nothing hStart hRead (.inr hNext)]
        exact ih hValid.2 hItems
    · exact ⟨_, _, parseLoop_error hStart (parseItem_number i _ hItem)⟩

/-- A part that the parser publishes before it has seen the rest of the text. -/
def HasPart (q : Text) : Prop :=
  ∃ (part : Items) (rest : Text), part.OnePart ∧ part.Valid ∧ part.Plain ∧
    q = part.text ++ 47 :: rest

/-- What the loop has made of its text. -/
inductive Outcome (absPath : Bool) (attrs : List (List Attribute)) (attr : List Attribute)
    (q : Text) : Query × Option SyntaxError → Prop where
  | accepted (items : Items) (hValid : items.Valid) (hPlain : items.Plain)
      (hText : q = items.text) :
      Outcome absPath attrs attr q (⟨items.publish attrs attr, absPath⟩, none)
  | refused (e : SyntaxError) : Outcome absPath attrs attr q (⟨attrs, absPath⟩, some e)
  | left (parts : List (List Attribute)) (e : SyntaxError) (hPart : HasPart q) :
      Outcome absPath attrs attr q (⟨parts, absPath⟩, some e)

theorem HasPart.cons {sep : Sep} (hSep : (Sep.text sep) ≠ [47])
    (hValid : ∀ items : Items, items.Valid → (Items.more i sep items).Valid) (hPlain : i.Plain)
    (h : HasPart q) : HasPart (i.text ++ (sep.text ++ q)) := by
  obtain ⟨part, rest, hOne, hPart, hPartPlain, rfl⟩ := h
  refine ⟨.more i sep part, rest, ?_, hValid part hPart, ⟨hPlain, hPartPlain⟩, by simp [Items.text]⟩
  cases sep with
  | slash => exact absurd rfl hSep
  | comma => exact hOne
  | nothing => exact hOne

/-- An item and a delimiter, and then the rest of the part. -/
theorem Outcome.same_part {s : Sep} (hSep : (s.text) ≠ [47])
    (hValid : ∀ items : Items, items.Valid → (Items.more i s items).Valid) (hPlain : i.Plain)
    (h : Outcome absPath attrs (i.attr :: attr) q r) :
    Outcome absPath attrs attr (i.text ++ (s.text ++ q)) r := by
  cases h with
  | accepted items hItems hItemsPlain hText =>
    have hPublish : (Items.more i s items).publish attrs attr =
        items.publish attrs (i.attr :: attr) := by
      cases s with
      | slash => exact absurd rfl hSep
      | comma => rfl
      | nothing => rfl
    rw [← hPublish]
    exact .accepted _ (hValid items hItems) ⟨hPlain, hItemsPlain⟩ (by rw [hText, Items.text])
  | refused e => exact .refused e
  | left parts e hPart => exact .left parts e (hPart.cons hSep hValid hPlain)

/-- An item and a `/`, and then the other parts. -/
theorem Outcome.next_part (hPlain : i.Plain)
    (h : Outcome absPath ((i.attr :: attr) :: attrs) [] q r) :
    Outcome absPath attrs attr (i.text ++ 47 :: q) r := by
  have hPart : HasPart (i.text ++ 47 :: q) := ⟨.last i, q, trivial, trivial, hPlain, rfl⟩
  cases h with
  | accepted items hItems hItemsPlain hText =>
    exact .accepted (.more i .slash items) hItems ⟨hPlain, hItemsPlain⟩ (by rw [hText]; rfl)
  | refused e => exact .left _ e hPart
  | left parts e _ => exact .left parts e hPart

/-- What stands behind an item that has been read: the end, a delimiter, or, behind a closing
quote, more. -/
theorem Item.Stops.cases (h : i.Stops rest) :
    rest = [] ∨ (∃ q, rest = 47 :: q) ∨ (∃ q, rest = 44 :: q ∧ ¬ i.IsWildcard) ∨
      i.EndsInQuote ∧ missing rest = false := by
  obtain ⟨hWildcard, hBare, hNe⟩ := h
  rcases rest with - | ⟨c, q⟩
  · exact .inl rfl
  · by_cases h47 : c = 47
    · exact .inr (.inl ⟨q, by rw [h47]⟩)
    · have hItem : ¬ i.IsWildcard := by
        intro hItem
        exact h47 (by simpa using hWildcard hItem)
      by_cases h44 : c = 44
      · exact .inr (.inr (.inl ⟨q, by rw [h44], hItem⟩))
      · have hQuote : i.EndsInQuote := by
          by_contra hQuote
          have hFollow := hBare hItem hQuote
          simp [h47, h44] at hFollow
        have h61 : c ≠ 61 := by simpa using hNe
        exact .inr (.inr (.inr ⟨hQuote, by simp [missing, h47, h44, h61]⟩))

/-- The loop comes to an end, and accepts nothing but items: each turn takes one off the text. -/
theorem parseLoop_sound (hLen : q.length ≤ n) (hStart : missing q = false) :
    ∃ r, parseLoop absPath n attrs attr q = some r ∧ Outcome absPath attrs attr q r := by
  induction n generalizing attrs attr q with
  | zero =>
    obtain rfl := List.length_eq_zero_iff.1 (Nat.le_zero.1 hLen)
    cases hStart
  | succ n ih =>
    rcases hRead : parseItem q with e | ⟨a, rest⟩
    · exact ⟨_, parseLoop_error hStart hRead, .refused e⟩
    · obtain ⟨i, rfl, rfl, hPlain, hStops⟩ := parseItem_sound hStart hRead
      have hPos : 0 < i.text.length := by
        have hHead := i.text_head []
        rw [List.append_nil] at hHead
        obtain ⟨c, t, hText⟩ := missing_ne_nil hHead
        simp [hText]
      rw [List.length_append] at hLen
      rcases hStops.cases with rfl | ⟨q, rfl⟩ | ⟨q, rfl, hItem⟩ | ⟨hQuote, hNext⟩
      · rw [parseLoop_nothing hStart hRead (.inl rfl), parseLoop_end]
        exact ⟨_, rfl, .accepted (.last i) trivial hPlain (List.append_nil _)⟩
      · rw [parseLoop_slash hStart hRead]
        rw [List.length_cons] at hLen
        split
        · exact ⟨_, rfl, .left _ _ ⟨.last i, q, trivial, trivial, hPlain, rfl⟩⟩
        · next hNext =>
          obtain ⟨r, hLoop, hOut⟩ := ih (by omega) (Bool.eq_false_iff.2 hNext)
          exact ⟨r, hLoop, hOut.next_part hPlain⟩
      · rw [parseLoop_comma hStart hRead]
        rw [List.length_cons] at hLen
        split
        · exact ⟨_, rfl, .refused _⟩
        · next hNext =>
          obtain ⟨r, hLoop, hOut⟩ := ih (by omega) (Bool.eq_false_iff.2 hNext)
          exact ⟨r, hLoop, hOut.same_part (s := .comma) (by simp [Sep.text])
            (fun items hItems => ⟨hItem, hItems⟩) hPlain⟩
      · rw [parseLoop_nothing hStart hRead (.inr hNext)]
        obtain ⟨r, hLoop, hOut⟩ := ih (by omega) hNext
        exact ⟨r, hLoop, hOut.same_part (s := .nothing) (by simp [Sep.text])
          (fun items hItems => ⟨hQuote, hItems⟩) hPlain⟩

end

/-! ## The published lists -/

section

variable {attrs : List (List Attribute)} {attr : List Attribute} (items : Items)

theorem Items.parts_ne_nil : items.parts ≠ [] := by
  induction items with
  | last i => exact List.cons_ne_nil _ _
  | more i sep items ih =>
    obtain ⟨part, parts, hParts⟩ := List.exists_cons_of_ne_nil ih
    cases sep with
    | slash => exact List.cons_ne_nil _ _
    | comma => simp [Items.parts, hParts]
    | nothing => simp [Items.parts, hParts]

theorem map_modifyHead (i : Item) (parts : List (List Item)) (front : List Attribute) :
    ((parts.modifyHead (i :: ·)).map (List.map Item.attr)).modifyHead (front ++ ·) =
      (parts.map (List.map Item.attr)).modifyHead ((front ++ [i.attr]) ++ ·) := by
  cases parts <;> simp

/-- The lists are published last part first, and each of them last item first. -/
theorem publish_attributes :
    ((items.publish attrs attr).map List.reverse).reverse = (attrs.map List.reverse).reverse ++
      (items.parts.map (List.map Item.attr)).modifyHead (attr.reverse ++ ·) := by
  induction items generalizing attrs attr with
  | last i => simp [Items.publish, Items.parts]
  | more i sep items ih =>
    cases sep with
    | slash =>
      rw [Items.publish, ih, Items.parts]
      cases items.parts <;> simp
    | comma =>
      rw [Items.publish, ih, Items.parts, map_modifyHead, List.reverse_cons]
      all_goals simp
    | nothing =>
      rw [Items.publish, ih, Items.parts, map_modifyHead, List.reverse_cons]
      all_goals simp

theorem attributes_publish (absPath : Bool) :
    Query.attributes ⟨items.publish [] [], absPath⟩ = items.parts.map (List.map Item.attr) := by
  rw [Query.attributes, publish_attributes]
  cases items.parts <;> simp

end

/-! ## Missing delimiters -/

/-- Behind every closing quote stands a delimiter or the end; the flag says that the text starts
inside of quotes. -/
def separated : Bool → Text → Bool
  | _, [] => true
  | false, ch :: c => separated (ch = 34) c
  | true, [_] => true
  | true, ch :: d :: c =>
    if ch = 34 then missing (d :: c) && separated false (d :: c)
    else if ch = 92 then separated true c
    else separated true (d :: c)

section

variable {s rest : Text}

theorem separated_plain (hs : ∀ c ∈ s, c ≠ 34) :
    separated false (s ++ rest) = separated false rest := by
  induction s with
  | nil => rfl
  | cons c s ih =>
    have hc : c ≠ 34 := hs c List.mem_cons_self
    have hTail := ih fun d hd => hs d (List.mem_cons_of_mem c hd)
    simpa [separated, hc] using hTail

theorem separated_quote : separated true (34 :: rest) = (missing rest && separated false rest) := by
  cases rest with
  | nil => rfl
  | cons c rest => simp only [separated, if_true]

theorem separated_quoted (cs : List QuotedChar) (rest : Text) :
    separated true (cs.flatMap QuotedChar.text ++ 34 :: rest) =
      (missing rest && separated false rest) := by
  induction cs with
  | nil => exact separated_quote
  | cons qc cs ih =>
    obtain ⟨c, hc⟩ | ⟨c, hc⟩ := qc
    · rw [List.flatMap_cons, List.append_assoc, ← ih]
      obtain ⟨d, t, hText⟩ : ∃ d t, cs.flatMap QuotedChar.text ++ 34 :: rest = d :: t :=
        List.exists_cons_of_ne_nil (by simp)
      simp [hText, QuotedChar.text, separated, hc]
    · rw [List.flatMap_cons, List.append_assoc, ← ih]
      simp [QuotedChar.text, separated]

theorem separated_str (t : Str) (hMissing : t.IsQuoted → missing rest = true) :
    separated false (t.text ++ rest) = separated false rest := by
  cases t with
  | symbol t => exact separated_plain fun c hc => (isSymbolChar_ne (t.2.2 c hc)).2.2.2.1
  | quoted cs =>
    have hQuoted := separated_quoted cs rest
    rw [hMissing trivial, Bool.true_and] at hQuoted
    simpa [Str.text, separated] using hQuoted

theorem separated_str_quoted (t : Str) (hQuoted : t.IsQuoted) (hRest : missing rest = false) :
    separated false (t.text ++ rest) = false := by
  cases t with
  | symbol t => exact hQuoted.elim
  | quoted cs =>
    have hText := separated_quoted cs rest
    rw [hRest, Bool.false_and] at hText
    simpa [Str.text, separated] using hText

theorem separated_item (i : Item) (rest : Text) (hMissing : i.EndsInQuote → missing rest = true) :
    separated false (i.text ++ rest) = separated false rest := by
  cases i with
  | string t => exact separated_str t hMissing
  | property name value =>
    rw [Item.text, List.append_assoc, separated_str name fun _ => rfl]
    exact separated_str value hMissing
  | star => rfl
  | starStar => rfl

theorem separated_item_quoted (i : Item) (hQuote : i.EndsInQuote) (hRest : missing rest = false) :
    separated false (i.text ++ rest) = false := by
  cases i with
  | string t => exact separated_str_quoted t hQuote hRest
  | property name value =>
    rw [Item.text, List.append_assoc, separated_str name fun _ => rfl]
    exact separated_str_quoted value hQuote hRest
  | star => exact hQuote.elim
  | starStar => exact hQuote.elim

/-- Whether a delimiter is missing behind a closing quote, the text itself tells. -/
theorem separated_text (items : Items) (hValid : items.Valid) :
    separated false items.text = true ↔ items.Joined := by
  induction items with
  | last i =>
    have hText := separated_item i [] fun _ => rfl
    rw [List.append_nil] at hText
    simp [Items.text, hText, separated, Items.Joined]
  | more i sep items ih =>
    cases sep with
    | slash =>
      rw [Items.text, separated_item i _ fun _ => rfl]
      exact ih hValid
    | comma =>
      rw [Items.text, separated_item i _ fun _ => rfl]
      exact ih hValid.2
    | nothing =>
      have hNext := items.text_head []
      rw [List.append_nil] at hNext
      rw [Items.text, Sep.text, List.nil_append, separated_item_quoted i hValid.1 hNext]
      simp [Items.Joined]

end

/-! ## The whole parser -/

section

variable {absPath : Bool} {fuel : Nat} {before : Query} {q : Text} {r : Query × Option SyntaxError}

theorem Derivation.text_eq (d : Derivation) : d.text = lead d.absolute ++ d.items.text := rfl

theorem parseContextQuery_relative {c : UInt8} (hc : c ≠ 47) :
    parseContextQuery fuel before (some (c :: q)) = parsePath fuel false (c :: q) := by
  unfold parseContextQuery
  split
  · next hNone => cases hNone
  · next hNil => cases hNil
  · next hSlash =>
    cases hSlash
    exact absurd rfl hc
  · next hSome =>
    cases hSome
    rfl

/-- A text is a path, which starts at the root when a `/` leads it. -/
structure IsPath (q : Text) (absPath : Bool) (path : Text) : Prop where
  text : q = lead absPath ++ path
  root : absPath = false → path.head? ≠ some 47

theorem parseContextQuery_path (hNe : q ≠ []) :
    ∃ absPath path, IsPath q absPath path ∧
      ∀ fuel before, parseContextQuery fuel before (some q) = parsePath fuel absPath path := by
  obtain ⟨c, t, rfl⟩ := List.exists_cons_of_ne_nil hNe
  by_cases hc : c = 47
  · refine ⟨true, t, ⟨by rw [hc]; rfl, ?_⟩, fun _ _ => by rw [hc]; rfl⟩
    intro hFalse
    cases hFalse
  · exact ⟨false, c :: t, ⟨rfl, fun _ => by simpa using hc⟩, fun _ _ =>
      parseContextQuery_relative hc⟩

variable (absPath : Bool)

theorem parseContextQuery_lead (hStart : missing q = false) :
    parseContextQuery fuel before (some (lead absPath ++ q)) =
      parseLoop absPath fuel [] [] q := by
  have hPath : parsePath fuel absPath q = parseLoop absPath fuel [] [] q :=
    if_neg (Bool.eq_false_iff.1 hStart)
  rw [← hPath]
  cases absPath with
  | true => rfl
  | false =>
    obtain ⟨c, t, rfl⟩ := missing_ne_nil hStart
    have hc : c ≠ 47 := by
      rintro rfl
      cases hStart
    exact parseContextQuery_relative hc

/-- A sequence of items is accepted, also where a delimiter is missing behind a closing quote. -/
theorem parses_items (items : Items) (hValid : items.Valid)
    (hPlain : items.Plain) :
    Parses (lead absPath ++ items.text) (⟨items.publish [] [], absPath⟩, none) := by
  refine ⟨items.count + 0, fun before => ?_⟩
  have hStart := items.text_head []
  have hLoop : parseLoop absPath (items.count + 0) [] [] (items.text ++ []) =
      resume absPath 0 (items.publish [] []) [] := parseLoop_items items hValid hPlain rfl
  rw [List.append_nil] at hStart hLoop
  rw [parseContextQuery_lead absPath hStart, hLoop]
  rfl

theorem parses_not_plain (items : Items) (hValid : items.Valid)
    (hPlain : ¬ items.Plain) : ∃ r e, Parses (lead absPath ++ items.text) (r, some e) := by
  have hStart := items.text_head []
  rw [List.append_nil] at hStart
  obtain ⟨r, e, hLoop⟩ : ∃ r e, parseLoop absPath (items.count + 0) [] [] items.text =
      some (r, some e) := parseLoop_not_plain items hValid hPlain
  exact ⟨r, e, _, fun before => (parseContextQuery_lead absPath hStart).trans hLoop⟩

/-- What the parser makes of a text. -/
inductive Result (q : Text) : Query × Option SyntaxError → Prop where
  | empty (hNil : q = []) : Result q (⟨[], false⟩, none)
  | missing (absPath : Bool) (path : Text) (hText : IsPath q absPath path)
      (hMissing : ContextQuery.missing path = true) : Result q (⟨[], absPath⟩, some .item)
  | path (absPath : Bool) (path : Text) (hText : IsPath q absPath path)
      (hStart : ContextQuery.missing path = false) (r : Query × Option SyntaxError)
      (hOut : Outcome absPath [] [] path r) : Result q r

/-- The parser comes to an end on every text. -/
theorem parses_total (q : Text) : ∃ r, Parses q r ∧ Result q r := by
  by_cases hNil : q = []
  · subst hNil
    exact ⟨_, ⟨0, fun before => rfl⟩, .empty rfl⟩
  · obtain ⟨absPath, path, hText, hParse⟩ := parseContextQuery_path hNil
    by_cases hMissing : missing path = true
    · refine ⟨_, ⟨0, fun before => ?_⟩, .missing absPath path hText hMissing⟩
      rw [hParse, parsePath, if_pos hMissing]
    · have hStart := Bool.eq_false_iff.2 hMissing
      obtain ⟨r, hLoop, hOut⟩ : ∃ r, parseLoop absPath path.length [] [] path = some r ∧
          Outcome absPath [] [] path r := parseLoop_sound (Nat.le_refl path.length) hStart
      refine ⟨r, ⟨path.length, fun before => ?_⟩, .path absPath path hText hStart r hOut⟩
      rw [hParse, parsePath, if_neg hMissing, hLoop]

/-- What is accepted is a sequence of items. -/
theorem Result.accepted (h : Result q r) (hOk : r.2 = none) (hNe : q ≠ []) :
    ∃ (absPath : Bool) (items : Items), items.Valid ∧ items.Plain ∧
      q = lead absPath ++ items.text := by
  cases h with
  | empty hNil => exact absurd hNil hNe
  | missing absPath path hText hMissing => cases hOk
  | path absPath path hText hStart r hOut =>
    cases hOut with
    | accepted items hValid hPlain hItems =>
      exact ⟨absPath, items, hValid, hPlain, by rw [hText.text, hItems]⟩
    | refused e => cases hOk
    | left parts e hPart => cases hOk

end

/-! ## The grammar -/

/-- The parser comes to an end on the text, accepts it exactly when the text is empty or in the
grammar, and leaves the parts of the query. -/
structure Recognised (q : Text) : Prop where
  terminates : ∃ r, Parses q r
  accepts    : ∀ r, Parses q r → (r.2 = none ↔ q = [] ∨ ∃ d : Derivation, d.text = q)
  empty      : ∀ r, Parses q r → q = [] → r.1 = ⟨[], false⟩
  lists      : ∀ r, Parses q r → r.2 = none → ∀ d : Derivation, d.text = q →
    r.1.attributes = d.attributes ∧ r.1.absPath = d.absolute

/-- A query but for a delimiter that is missing behind some closing quote. -/
def Juxtaposed (q : Text) : Prop :=
  ∃ (absPath : Bool) (items : Items), items.Valid ∧ items.Plain ∧ ¬ items.Joined ∧
    q = lead absPath ++ items.text

/-- A query in which some value starts with a digit and is no number. -/
def DigitValue (q : Text) : Prop := ∃ d : Derivation, d.text = q ∧ ¬ d.items.Plain

theorem separated_lead (absPath : Bool) (q : Text) :
    separated false (lead absPath ++ q) = separated false q := by
  cases absPath <;> rfl

theorem Juxtaposed.not_derivation {q : Text} (h : Juxtaposed q) (d : Derivation) : d.text ≠ q := by
  obtain ⟨absPath, items, hValid, -, hJoined, rfl⟩ := h
  intro hText
  have hSeparated : separated false d.text = true := by
    rw [Derivation.text, separated_lead]
    exact (separated_text d.items d.valid).2 d.joined
  rw [hText, separated_lead] at hSeparated
  exact hJoined ((separated_text items hValid).1 hSeparated)

theorem lead_ne_nil (absPath : Bool) (items : Items) : lead absPath ++ items.text ≠ [] := by
  have hStart := items.text_head []
  rw [List.append_nil] at hStart
  obtain ⟨c, t, hText⟩ := missing_ne_nil hStart
  rw [hText]
  exact List.append_ne_nil_of_right_ne_nil _ (List.cons_ne_nil c t)

/-- A query with a missing delimiter is accepted. -/
theorem Juxtaposed.not_recognised {q : Text} (h : Juxtaposed q) : ¬ Recognised q := by
  intro hRec
  have hNot := h.not_derivation
  obtain ⟨absPath, items, hValid, hPlain, -, rfl⟩ := h
  have hAccepts := hRec.accepts _ (parses_items absPath items hValid hPlain)
  rcases hAccepts.1 rfl with hNil | ⟨d, hText⟩
  · exact lead_ne_nil absPath items hNil
  · exact hNot d hText

/-- A query with such a value is refused. -/
theorem DigitValue.not_recognised {q : Text} (h : DigitValue q) : ¬ Recognised q := by
  intro hRec
  obtain ⟨d, rfl, hPlain⟩ := h
  obtain ⟨r, e, hParses⟩ := parses_not_plain d.absolute d.items d.valid hPlain
  have hAccepts := (hRec.accepts _ hParses).2 (.inr ⟨d, rfl⟩)
  cases hAccepts

theorem recognised_of_not {q : Text} (hJuxtaposed : ¬ Juxtaposed q) (hDigit : ¬ DigitValue q) :
    Recognised q := by
  obtain ⟨r, hParses, hResult⟩ := parses_total q
  -- a derivation is accepted, with its parts
  have hDerived : ∀ d : Derivation, d.text = q →
      r = (⟨d.items.publish [] [], d.absolute⟩, none) := by
    intro d hText
    have hPlain : d.items.Plain := by
      by_contra hPlain
      exact hDigit ⟨d, hText, hPlain⟩
    have hItems := parses_items d.absolute d.items d.valid hPlain
    rw [← Derivation.text_eq, hText] at hItems
    exact hParses.unique hItems
  refine ⟨⟨r, hParses⟩, ?_, ?_, ?_⟩
  · intro r' hParses'
    obtain rfl := hParses.unique hParses'
    constructor
    · intro hOk
      by_cases hNil : q = []
      · exact .inl hNil
      · obtain ⟨absPath, items, hValid, hPlain, hText⟩ := hResult.accepted hOk hNil
        have hJoined : items.Joined := by
          by_contra hJoined
          exact hJuxtaposed ⟨absPath, items, hValid, hPlain, hJoined, hText⟩
        exact .inr ⟨⟨absPath, items, hValid, hJoined⟩, hText.symm⟩
    · rintro (rfl | ⟨d, hText⟩)
      · have hEmpty : Parses [] (⟨[], false⟩, none) := ⟨0, fun before => rfl⟩
        rw [hParses.unique hEmpty]
      · rw [hDerived d hText]
  · rintro r' hParses' rfl
    have hEmpty : Parses [] (⟨[], false⟩, none) := ⟨0, fun before => rfl⟩
    rw [hParses'.unique hEmpty]
  · intro r' hParses' hOk d hText
    obtain rfl := hParses.unique hParses'
    rw [hDerived d hText]
    exact ⟨attributes_publish d.items d.absolute, rfl⟩

/-- The parser accepts exactly its grammar, but for missing delimiters behind closing quotes and
for values that start with a digit. -/
theorem recognised_iff (q : Text) : Recognised q ↔ ¬ Juxtaposed q ∧ ¬ DigitValue q := by
  constructor
  · intro hRec
    exact ⟨fun h => h.not_recognised hRec, fun h => h.not_recognised hRec⟩
  · rintro ⟨hJuxtaposed, hDigit⟩
    exact recognised_of_not hJuxtaposed hDigit

/-- `"a""b"` -/
theorem not_recognised : ¬ ∀ q, Recognised q := by
  intro hAll
  have hJuxtaposed : Juxtaposed [34, 97, 34, 34, 98, 34] := by
    refine ⟨false, .more (.string (.quoted [.plain 97 ?_])) .nothing
      (.last (.string (.quoted [.plain 98 ?_]))), ⟨trivial, trivial⟩, ⟨trivial, trivial⟩, id, rfl⟩
    · decide
    · decide
  exact hJuxtaposed.not_recognised (hAll _)

end TcfAgent.ContextQuery

import TcfAgent.Lib.Run
import TcfAgent.Services.PathMapUpdate

/-!
# The commands of the path map service

`set_path_map` and `channel_close_listener` of `services/pathmap.c`. What `json_read_array` and
`json_read_struct` find in the text of a command is a `Message`; the rules of the channel are
updated one after the other while it is read, and an exception leaves the rest as it is.

Main results:

* `readRules_ok`  — one command keeps the rules and their blocks;
* `rules_kept`    — so does every run of commands and closed channels.
-/

namespace TcfAgent.PathMap

open TcfAgent.Lib TcfAgent.Lib.Attempt TcfAgent.Lib.Blocks TcfAgent.JsonText TcfAgent.PathNames

/-! ## Messages -/

/-- Where `json_read_struct` raises an exception: outside of its call back, or in
`json_read_object`. -/
inductive Cut where
  | between
  | inObject
deriving DecidableEq, Repr

/-- The attributes that `json_read_struct` gives to its call back. -/
structure Reading where
  attrs : List Attr
  cut   : Option Cut
deriving DecidableEq, Repr

/-- The rules that `json_read_array` gives to its call back, up to the end of the array or to an
exception. -/
inductive Message where
  | stop
  | done
  | rule (r : Reading) (rest : Message)
deriving DecidableEq, Repr

/-- `json_read_object` -/
def readObject (text : Text) : Option (Text × Text) :=
  match JsonObject.jsonReadObject ⟨0, []⟩ text with
  | .ok (bytes, _, rest) => some (JsonString.cString bytes, rest)
  | .error _ => none

/-- The loop of `json_read_struct`; every member takes something of the text. -/
def readMembers : (fuel : Nat) → Text → Reading × Text
  | 0, text => (⟨[], some .between⟩, text)
  | fuel + 1, text =>
    match (jsonReadAllocString text).bind fun (name, text) => (jsonTestChar text 58).map fun text =>
      (name, text) with
    | none => (⟨[], some .between⟩, [])
    | some (name, text) =>
      match readObject text with
      | none => (⟨[], some .inObject⟩, [])
      | some (value, text) =>
        let attr := ((name.getD []).take 255, value)
        match text.dropWhile JsonString.isSpace with
        | 44 :: text => (⟨attr :: (readMembers fuel text).1.attrs, (readMembers fuel text).1.cut⟩,
            (readMembers fuel text).2)
        | 125 :: text => (⟨[attr], none⟩, text)
        | _ => (⟨[attr], some .between⟩, [])

/-- `json_read_struct` -/
def readStruct (text : Text) : Reading × Text :=
  match text.dropWhile JsonString.isSpace with
  | 110 :: 117 :: 108 :: 108 :: rest => (⟨[], none⟩, rest)
  | 123 :: rest =>
    match rest.dropWhile JsonString.isSpace with
    | 125 :: rest => (⟨[], none⟩, rest)
    | _ => readMembers rest.length rest
  | _ => (⟨[], some .between⟩, [])

/-- The loop of `json_read_array`. -/
def readStructs : (fuel : Nat) → Text → Message
  | 0, _ => .stop
  | fuel + 1, text =>
    let (reading, text) := readStruct text
    match text.dropWhile JsonString.isSpace with
    | 44 :: text => .rule reading (readStructs fuel text)
    | 93 :: _ => .rule reading .done
    | _ => .rule reading .stop

/-- `json_read_array` -/
def readMessage (text : Text) : Message :=
  match text.dropWhile JsonString.isSpace with
  | 110 :: 117 :: 108 :: 108 :: _ => .done
  | 91 :: rest =>
    match rest.dropWhile JsonString.isSpace with
    | 93 :: _ => .done
    | _ => readStructs rest.length rest
  | _ => .stop

/-! ## Commands -/

/-- `read_rule_attrs`, for one attribute after the other -/
def newAttributes : List Attr → Update (List Attribute)
  | [] => pure []
  | (name, value) :: attrs => do
    let a ← newAttribute name value
    let new ← newAttributes attrs
    return a :: new

/-- `json_read_struct` and `update_rule` in `read_rule` -/
def readRule (r : Reading) : Update Nat := do
  let new ← newAttributes r.attrs
  match r.cut with
  | none => updateRule new
  | some .between => raise ⟨⟩
  | some .inObject => do
    let _ ← newAttribute [] []
    raise ⟨⟩

def freeAttributes : List Attribute → Update Unit
  | [] => pure ⟨⟩
  | a :: attrs => do
    freeAttribute a
    freeAttributes attrs

/-- `free_rule` -/
def freeRule : Update Unit := do
  let r := (← get).rule
  freeString r.typed.src
  freeString r.typed.dst
  freeString r.typed.host
  freeString r.typed.prot
  freeString r.typed.query
  freeString r.typed.ctx
  freeAttributes r.attrs

/-- `free_rule` for one rule after the other -/
def freeRules : Heap → List Rule → Except (Stop Unit) Unit × Heap
  | heap, [] => (.ok ⟨⟩, heap)
  | heap, r :: rules =>
    match freeRule ⟨heap, r⟩ with
    | (.ok _, s) => freeRules s.heap rules
    | (.error e, s) => (.error e, s.heap)

/-- What a command comes to: the rules of its map, and what `update_rule` was given where it came to
its end, with the rule. -/
structure SetResult where
  result  : Except (Stop Unit) Unit
  heap    : Heap
  rules   : List Rule
  diff    : Bool
  updates : List (Rule × List Attr)

/-- `json_read_array` in `set_path_map`, and what follows: the rules are those from the next one on.
-/
def readRules : Message → Heap → List Rule → SetResult
  | .stop, heap, rules => ⟨.error (.raise ⟨⟩), heap, rules, false, []⟩
  | .done, heap, rules => ⟨(freeRules heap rules).1, (freeRules heap rules).2, [], rules ≠ [], []⟩
  | .rule reading rest, heap, rules =>
    match readRule reading ⟨heap, rules.headD .empty⟩ with
    | (.ok diff, s) =>
      let next := readRules rest s.heap rules.tail
      ⟨next.result, next.heap, s.rule :: next.rules, rules = [] || diff ≠ 0 || next.diff,
        (s.rule, reading.attrs) :: next.updates⟩
    | (.error e, s) => ⟨.error e, s.heap, s.rule :: rules.tail, false, []⟩

/-! ## Runs -/

/-- A map: its channel and its rules. -/
abbrev Map := Nat × List Rule

/-- The maps, how often listeners have been told of a change, and what the last command has updated.
-/
structure State where
  heap    : Heap
  maps    : List Map
  changes : Nat
  updates : List (Rule × List Attr)

def State.init : State := ⟨.empty, [], 0, []⟩

/-- A command `set` of a channel, or a channel that is closed; `redirected` when its state is
`ChannelStateHelloReceived`. -/
inductive Op where
  | set (c : Nat) (text : Text)
  | close (c : Nat) (redirected : Bool)
deriving DecidableEq, Repr

/-- `find_map`: the rules of the channel, with the maps before and behind. -/
def findMap (c : Nat) : List Map → Option (List Map × List Rule × List Map)
  | [] => none
  | m :: maps =>
    if m.1 = c then some ([], m.2, maps)
    else (findMap c maps).map fun (before, rules, behind) => (m :: before, rules, behind)

/-- The state after a command; `none` for a fault. -/
def afterSet (s : State) (o : SetResult) (maps : List Map) : Option State :=
  match o.result with
  | .ok _ => some ⟨o.heap, maps, if o.diff then s.changes + 1 else s.changes, o.updates⟩
  | .error (.raise _) => some ⟨o.heap, maps, s.changes, o.updates⟩
  | .error .fault => none

def step (s : State) : Op → Option State
  | .set c text =>
    let message := readMessage text
    match findMap c s.maps with
    | some (before, rules, behind) =>
      let o := readRules message s.heap rules
      afterSet s o
        (before ++ (if rules ≠ [] ∧ o.rules = [] then behind else (c, o.rules) :: behind))
    | none =>
      let o := readRules message s.heap []
      afterSet s o (if o.rules = [] then s.maps else (c, o.rules) :: s.maps)
  | .close _ true => some { s with updates := [] }
  | .close c false =>
    match findMap c s.maps with
    | none => some { s with updates := [] }
    | some (before, rules, behind) =>
      match freeRules s.heap rules with
      | (.ok _, heap) =>
          some ⟨heap, before ++ behind, if rules = [] then s.changes else s.changes + 1, []⟩
      | (.error _, _) => none

/-! ## What holds after every step -/

/-- The blocks of the strings of rules. -/
def ownedBy (rules : List Rule) : List Nat := rules.flatMap fun r => owned r.typed

/-- The blocks of the attributes in the lists of rules. -/
def linkedIn (rules : List Rule) : List Nat := rules.flatMap fun r => blocks r.attrs

def State.rules (s : State) : List Rule := s.maps.flatMap Prod.snd

/-- The fields of a new rule that is given a list of attributes, if `update_rule` comes to its end.
-/
def freshRule (new : List Attr) : Option (Field → Option Text) :=
  match readRule ⟨new, none⟩ ⟨.empty, .empty⟩ with
  | (.ok _, s) => some (contents s.rule.typed)
  | (.error _, _) => none

/-- The strings of the fields are live, and no two fields have the same; the attributes in the lists
are the live ones, each of them once; and the rules that the last command has updated are as new
ones. -/
structure Consistent (s : State) : Prop where
  live : ∀ b ∈ ownedBy s.rules, b ∈ s.heap.strings.live
  own : (ownedBy s.rules).Nodup
  linked : ∀ b, b ∈ linkedIn s.rules ↔ b ∈ s.heap.attributes.live
  once : (linkedIn s.rules).Nodup
  fresh : ∀ u ∈ s.updates, u.1 ∈ s.rules ∧ freshRule u.2 = some (contents u.1.typed)

/-! ## When it does -/

/-- All values can be read. Of the attributes of a field, none is left over where the last one is
read as a string; the last one that is not there already is read as the last one; and where all are
there, the field has what the last one is read as. -/
def Settled (r : Rule) (new : List Attr) : Prop :=
  (∀ a ∈ new, ¬ Bad a) ∧ ∀ f, (if ∃ o ∈ (compare r.attrs new).2, fieldOf o.name = some f then none
    else readMarks f (contents r.typed f) (compare r.attrs new).1) = readLast f new

/-- An exception does no harm, and without one the fields are settled. -/
def UpdateOk (r : Rule) (new : List Attr) : Prop :=
  Spared (contents r.typed) (compare r.attrs new).1 (compare r.attrs new).2 ∧
    (¬ Raises (compare r.attrs new).1 → Settled r new)

/-- Every rule that is read is updated well, or ends before its first attribute. -/
def MessageOk : List Rule → Message → Prop
  | _, .stop => True
  | _, .done => True
  | rules, .rule reading rest =>
    match reading.cut with
    | some cut => reading.attrs = [] ∧ cut = .between
    | none => UpdateOk (rules.headD .empty) reading.attrs ∧
        (¬ Raises (compare (rules.headD .empty).attrs reading.attrs).1 → MessageOk rules.tail rest)

/-- The rules of a channel. -/
def rulesOf (c : Nat) (maps : List Map) : List Rule :=
  match findMap c maps with
  | some (_, rules, _) => rules
  | none => []

def StepOk (s : State) : Op → Prop
  | .set c text => MessageOk (rulesOf c s.maps) (readMessage text)
  | .close _ _ => True

/-! ## Rules -/

section

variable {s : RuleState} {heap : Heap} {rules : List Rule} {attrs : List Attribute}
  {new : List Attr}
  {R M : List Nat}

theorem newAttributes_run (new : List Attr) (h : Held s.heap.attributes M) : ∃ attributes as,
    newAttributes new s = (.ok as, { s with heap.attributes := attributes }) ∧
      Held attributes (blocks as ++ M) ∧ as.map Attribute.attr = new := by
  induction new generalizing s M with
  | nil => exact ⟨s.heap.attributes, [], rfl, h, rfl⟩
  | cons a new ih =>
    obtain ⟨name, value⟩ := a
    obtain ⟨attributes, as, hRun, hHeld, hAttrs⟩ :=
      ih (s := { s with heap.attributes := s.heap.attributes.alloc })
      h.alloc
    refine ⟨attributes, ⟨s.heap.attributes.next, name, value⟩ :: as, ?_, ?_, congrArg _ hAttrs⟩
    · have hHead : newAttribute name value s = (.ok ⟨s.heap.attributes.next, name, value⟩,
          { s with heap.attributes := s.heap.attributes.alloc }) := rfl
      rw [newAttributes, bind_of_ok hHead, bind_of_ok hRun]
      rfl
    · exact hHeld.congr List.perm_middle

theorem freeAttributes_run (h : Held s.heap.attributes (blocks attrs ++ M)) :
    ∃ attributes, freeAttributes attrs s = (.ok ⟨⟩, { s with heap.attributes := attributes }) ∧
      Held attributes M := by
  induction attrs generalizing s with
  | nil => exact ⟨s.heap.attributes, rfl, h⟩
  | cons a attrs ih =>
    obtain ⟨attributes, hFree, hRest⟩ := freeAttribute_run h
    obtain ⟨attributes', hRun, hEnd⟩ := ih (s := { s with heap.attributes := attributes }) hRest
    exact ⟨attributes', (bind_of_ok hFree).trans hRun, hEnd⟩

theorem freeRule_run (hStrings : Held s.heap.strings (owned s.rule.typed ++ R))
    (hAttributes : Held s.heap.attributes (blocks s.rule.attrs ++ M)) :
    ∃ t, freeRule s = (.ok ⟨⟩, t) ∧ Held t.heap.strings R ∧ Held t.heap.attributes M := by
  obtain ⟨⟨strings, attributes⟩, attrs, ⟨src, dst, host, prot, query, ctx⟩⟩ := s
  have hOrder : Held strings (src.toList.map Str.block ++ (dst.toList.map Str.block ++
      (host.toList.map Str.block ++ (prot.toList.map Str.block ++ (query.toList.map Str.block ++
        (ctx.toList.map Str.block ++ R)))))) := by
    refine hStrings.congr (List.perm_iff_count.2 fun b => ?_)
    simp only [owned, List.flatMap_cons, List.flatMap_nil, List.append_nil, List.map_append,
      List.count_append]
    omega
  let state := fun strings : Blocks =>
    (⟨⟨strings, attributes⟩, attrs, ⟨src, dst, host, prot, query, ctx⟩⟩ : RuleState)
  obtain ⟨strings1, hSrc, hHeld1, -⟩ := freeString_run (s := state strings) hOrder
  obtain ⟨strings2, hDst, hHeld2, -⟩ := freeString_run (s := state strings1) hHeld1
  obtain ⟨strings3, hHost, hHeld3, -⟩ := freeString_run (s := state strings2) hHeld2
  obtain ⟨strings4, hProt, hHeld4, -⟩ := freeString_run (s := state strings3) hHeld3
  obtain ⟨strings5, hQuery, hHeld5, -⟩ := freeString_run (s := state strings4) hHeld4
  obtain ⟨strings6, hCtx, hHeld6, -⟩ := freeString_run (s := state strings5) hHeld5
  obtain ⟨attributes', hAttrs, hEnd⟩ := freeAttributes_run (s := state strings6) hAttributes
  refine ⟨{ state strings6 with heap.attributes := attributes' }, ?_, hHeld6, hEnd⟩
  exact (bind_of_ok hSrc).trans
    ((bind_of_ok hDst).trans ((bind_of_ok hHost).trans ((bind_of_ok hProt).trans
    ((bind_of_ok hQuery).trans ((bind_of_ok hCtx).trans hAttrs)))))

theorem freeRules_run (hStrings : Held heap.strings (ownedBy rules ++ R))
    (hAttributes : Held heap.attributes (linkedIn rules ++ M)) :
    (freeRules heap rules).1 = .ok ⟨⟩ ∧ Held (freeRules heap rules).2.strings R ∧
      Held (freeRules heap rules).2.attributes M := by
  induction rules generalizing heap with
  | nil => exact ⟨rfl, hStrings, hAttributes⟩
  | cons r rules ih =>
    rw [ownedBy, List.flatMap_cons, List.append_assoc] at hStrings
    rw [linkedIn, List.flatMap_cons, List.append_assoc] at hAttributes
    obtain ⟨t, hRun, hStr, hAttr⟩ := freeRule_run (s := ⟨heap, r⟩) hStrings hAttributes
    rw [freeRules, hRun]
    exact ih hStr hAttr

theorem not_raises {marks : List (Attr × Bool)} (h : ∀ m ∈ marks, ¬ Bad m.1) : ¬ Raises marks := by
  rintro ⟨m, hm, -, hBad⟩
  exact h m hm hBad

theorem compare_nil (new : List Attr) : compare [] new = (new.map fun a => (a, true), []) := by
  induction new with
  | nil => rfl
  | cons a new ih =>
    rw [compare, takeOld, ih]
    rfl

/-- The fields of a new rule are what the last attributes are read as. -/
theorem freshRule_eq (h : ∀ a ∈ new, ¬ Bad a) : freshRule new = some fun f => readLast f new := by
  obtain ⟨attributes, as, hRun, hHeld, hAttrs⟩ :=
    newAttributes_run (s := ⟨.empty, .empty⟩) new held_empty
  have hQuiet : ¬ Raises (new.map fun a => (a, true)) := by
    refine not_raises fun m hm => ?_
    obtain ⟨a, ha, rfl⟩ := List.mem_map.1 hm
    exact h a ha
  have hCompare : compare [] (as.map Attribute.attr) = (new.map fun a => (a, true), []) := by
    rw [hAttrs, compare_nil]
  have hEnds :=
    updateRule_ends (s := ⟨⟨.empty, attributes⟩, .empty⟩) as (R := []) (M := []) held_empty hHeld
    (by rw [Spared, show Rule.empty.attrs = [] from rfl, hCompare]; exact fun hRaises =>
    absurd hRaises hQuiet)
  rw [LoopEnds, show Rule.empty.attrs = [] from rfl, hCompare] at hEnds
  have hRule :
    readRule ⟨new, none⟩ ⟨.empty, .empty⟩ = updateRule as ⟨⟨.empty, attributes⟩, .empty⟩ :=
    bind_of_ok hRun
  rw [freshRule, hRule]
  unfold Attempt.Ends at hEnds
  rcases hUpdate : updateRule as ⟨⟨.empty, attributes⟩, .empty⟩ with ⟨(e | -) | n, t⟩
  · rw [hUpdate] at hEnds
    exact absurd hEnds.1 hQuiet
  · rw [hUpdate] at hEnds
    exact absurd hEnds not_false
  · rw [hUpdate] at hEnds
    refine congrArg some (funext fun f => ?_)
    have hNull : contents Rule.empty.typed f = none := by
      rcases f with - | - | - | - | - | - <;> rfl
    rw [hEnds.2.2.2 f, if_neg (by simp)]
    exact congrArg (readMarks f · _) hNull

/-! ## Commands -/

/-- A rule is read and updated. -/
theorem readRule_ends {reading : Reading} (hStrings : Held s.heap.strings (owned s.rule.typed ++ R))
    (hAttributes : Held s.heap.attributes (blocks s.rule.attrs ++ M)) (hCut : reading.cut = none)
    (hOk : UpdateOk s.rule reading.attrs) :
    Ends (readRule reading)
      (fun _ t => ¬ Raises (compare s.rule.attrs reading.attrs).1 ∧
        Held t.heap.strings (owned t.rule.typed ++ R) ∧
          Held t.heap.attributes (blocks t.rule.attrs ++ M) ∧
        freshRule reading.attrs = some (contents t.rule.typed))
      (fun _ t => Held t.heap.strings (owned t.rule.typed ++ R) ∧
        Held t.heap.attributes (blocks t.rule.attrs ++ M)) s := by
  obtain ⟨attrs, cut⟩ := reading
  obtain rfl : cut = none := hCut
  obtain ⟨attributes, as, hRun, hHeld, hAttrs⟩ := newAttributes_run attrs hAttributes
  rw [readRule, Attempt.ends_bind, ends_of_ok hRun]
  have hNodes := hHeld.congr (List.perm_append_comm_assoc (blocks as) (blocks s.rule.attrs) M)
  have hEnds := updateRule_ends (s := { s with heap.attributes := attributes }) as hStrings hNodes
    (by rw [hAttrs]; exact hOk.1)
  rw [LoopEnds, hAttrs] at hEnds
  refine hEnds.imp ?_ ?_
  · rintro n t ⟨hQuiet, hStr, hAttr, hAll⟩
    obtain ⟨hGood, hSettled⟩ := hOk.2 hQuiet
    refine ⟨hQuiet, hStr, hAttr, ?_⟩
    rw [freshRule_eq hGood]
    exact congrArg some (funext fun f => ((hAll f).trans (hSettled f)).symm)
  · rintro e t ⟨-, hStr, hAttr⟩
    exact ⟨hStr, hAttr⟩

/-- What a command keeps, of its rules `o.rules` and of the others. -/
structure Kept (R M : List Nat) (o : SetResult) : Prop where
  safe : o.result ≠ .error .fault
  strings : Held o.heap.strings (ownedBy o.rules ++ R)
  attributes : Held o.heap.attributes (linkedIn o.rules ++ M)
  fresh : ∀ u ∈ o.updates, u.1 ∈ o.rules ∧ freshRule u.2 = some (contents u.1.typed)

theorem readRules_ok {message : Message} (hStrings : Held heap.strings (ownedBy rules ++ R))
    (hAttributes : Held heap.attributes (linkedIn rules ++ M)) (hOk : MessageOk rules message) :
    Kept R M (readRules message heap rules) := by
  induction message generalizing heap rules R M with
  | stop => exact ⟨by simp [readRules], hStrings, hAttributes,
      fun u hu => absurd hu List.not_mem_nil⟩
  | done =>
    obtain ⟨hResult, hStr, hAttr⟩ := freeRules_run hStrings hAttributes
    refine ⟨?_, hStr, hAttr, fun u hu => absurd hu List.not_mem_nil⟩
    rw [readRules, hResult]
    simp
  | rule reading rest ih =>
    have hStr :
      Held heap.strings (owned (rules.headD .empty).typed ++ (ownedBy rules.tail ++ R)) := by
      rcases rules with - | ⟨r, rules⟩
      · exact hStrings
      · rw [← List.append_assoc]
        exact hStrings
    have hAttr :
      Held heap.attributes (blocks (rules.headD .empty).attrs ++ (linkedIn rules.tail ++ M)) := by
      rcases rules with - | ⟨r, rules⟩
      · exact hAttributes
      · rw [← List.append_assoc]
        exact hAttributes
    -- the rule is read as a whole, or the message ends inside of it
    rcases hCut : reading.cut with - | cut
    · rw [MessageOk, hCut] at hOk
      obtain ⟨hUpdate, hRest⟩ := hOk
      have hEnds := readRule_ends (s := ⟨heap, rules.headD .empty⟩) hStr hAttr hCut hUpdate
      unfold Attempt.Ends at hEnds
      rcases hRun : readRule reading ⟨heap, rules.headD .empty⟩ with ⟨(e | -) | n, t⟩
      · rw [hRun] at hEnds
        obtain ⟨hStrT, hAttrT⟩ := hEnds
        rw [readRules, hRun]
        refine ⟨by simp, ?_, ?_, fun u hu => absurd hu List.not_mem_nil⟩
        · rw [ownedBy, List.flatMap_cons, List.append_assoc]
          exact hStrT
        · rw [linkedIn, List.flatMap_cons, List.append_assoc]
          exact hAttrT
      · rw [hRun] at hEnds
        exact absurd hEnds not_false
      · rw [hRun] at hEnds
        obtain ⟨hQuiet, hStrT, hAttrT, hFresh⟩ := hEnds
        -- the rule goes to the front of what the rest of the message leaves alone
        have hStrNext := hStrT.congr (List.perm_append_comm_assoc _ (ownedBy rules.tail) R)
        have hAttrNext := hAttrT.congr (List.perm_append_comm_assoc _ (linkedIn rules.tail) M)
        have hNext := ih hStrNext hAttrNext (hRest hQuiet)
        rw [readRules, hRun]
        refine ⟨hNext.safe, ?_, ?_, ?_⟩
        · rw [ownedBy, List.flatMap_cons, List.append_assoc]
          exact hNext.strings.congr (List.perm_append_comm_assoc _ _ R)
        · rw [linkedIn, List.flatMap_cons, List.append_assoc]
          exact hNext.attributes.congr (List.perm_append_comm_assoc _ _ M)
        · intro u hu
          rcases List.mem_cons.1 hu with rfl | hu
          · exact ⟨List.mem_cons_self, hFresh⟩
          · exact ⟨List.mem_cons_of_mem _ (hNext.fresh u hu).1, (hNext.fresh u hu).2⟩
    · rw [MessageOk, hCut] at hOk
      obtain ⟨hNone, rfl⟩ := hOk
      have hRun : readRule reading ⟨heap, rules.headD .empty⟩ =
          (.error (.raise ⟨⟩), ⟨heap, rules.headD .empty⟩) := by
        rw [readRule, hNone, hCut]
        rfl
      rw [readRules, hRun]
      refine ⟨by simp, ?_, ?_, fun u hu => absurd hu List.not_mem_nil⟩
      · rw [ownedBy, List.flatMap_cons, List.append_assoc]
        exact hStr
      · rw [linkedIn, List.flatMap_cons, List.append_assoc]
        exact hAttr

end

/-! ## Runs -/

section

variable {s s' : State} {c : Nat} {maps before behind : List Map} {rules : List Rule} {op : Op}

theorem findMap_some (h : findMap c maps = some (before, rules, behind)) :
    maps = before ++ (c, rules) :: behind := by
  induction maps generalizing before with
  | nil => cases h
  | cons m maps ih =>
    rw [findMap] at h
    split at h
    · rename_i hSame
      obtain ⟨rfl, hRest⟩ := Prod.mk.inj (Option.some.inj h)
      cases hRest
      rw [← hSame]
      rfl
    · obtain ⟨⟨before', rules', behind'⟩, hTail, hParts⟩ := Option.map_eq_some_iff.1 h
      obtain ⟨rfl, hRest⟩ := Prod.mk.inj hParts
      cases hRest
      rw [ih hTail]
      rfl

/-- The rules of one map, and those of the others. -/
theorem flatMap_perm {α : Type} (f : Rule → List α) (before behind : List Map) (m : Map) :
    ((before ++ m :: behind).flatMap Prod.snd).flatMap f |>.Perm
      (m.2.flatMap f ++ ((before ++ behind).flatMap Prod.snd).flatMap f) := by
  simp only [List.flatMap_append, List.flatMap_cons, ← List.append_assoc]
  exact (List.perm_append_comm.append_right _)

theorem findMap_perm {α : Type} {f : Rule → List α}
    (h : findMap c maps = some (before, rules, behind)) :
    ((maps.flatMap Prod.snd).flatMap f).Perm
    (rules.flatMap f ++ ((before ++ behind).flatMap Prod.snd).flatMap f) := by
  rw [findMap_some h]
  exact flatMap_perm f before behind (c, rules)

/-- What the blocks are held by, and what the last command has updated. -/
structure Inv (s : State) : Prop where
  strings : Held s.heap.strings (ownedBy s.rules)
  attributes : Held s.heap.attributes (linkedIn s.rules)
  fresh : ∀ u ∈ s.updates, u.1 ∈ s.rules ∧ freshRule u.2 = some (contents u.1.typed)

theorem Inv.consistent (h : Inv s) : Consistent s where
  live _ hb := h.strings.mem_iff.1 hb
  own := h.strings.owners_nodup
  linked _ := h.attributes.mem_iff
  once := h.attributes.owners_nodup
  fresh := h.fresh

theorem inv_init : Inv .init := ⟨held_empty, held_empty, fun _ hu => absurd hu List.not_mem_nil⟩

/-- A command keeps the rules of its map, and the others are `others`. -/
theorem afterSet_inv {o : SetResult} (others : List Rule)
    (hKept : Kept (ownedBy others) (linkedIn others) o)
    (hPerm : (maps.flatMap Prod.snd).Perm (o.rules ++ others)) :
    ∃ s', afterSet s o maps = some s' ∧ Inv s' := by
  have hInv : ∀ changes, Inv ⟨o.heap, maps, changes, o.updates⟩ := by
    intro changes
    refine ⟨hKept.strings.congr ?_, hKept.attributes.congr ?_, fun u hu => ?_⟩
    · rw [ownedBy, ownedBy, ← List.flatMap_append]
      exact (hPerm.flatMap_right _).symm
    · rw [linkedIn, linkedIn, ← List.flatMap_append]
      exact (hPerm.flatMap_right _).symm
    · exact ⟨hPerm.mem_iff.2 (List.mem_append_left _ (hKept.fresh u hu).1), (hKept.fresh u hu).2⟩
  rcases hResult : o.result with (e | -) | ⟨⟩
  · exact ⟨_, by rw [afterSet, hResult], hInv _⟩
  · exact absurd hResult hKept.safe
  · exact ⟨_, by rw [afterSet, hResult], hInv _⟩

theorem step_inv (h : Inv s) (hOk : StepOk s op) : ∃ s', step s op = some s' ∧ Inv s' := by
  rcases op with ⟨c, text⟩ | ⟨c, redirected⟩
  · rw [StepOk, rulesOf] at hOk
    rw [step]
    rcases hFind : findMap c s.maps with - | ⟨before, rules, behind⟩
    · rw [hFind] at hOk
      refine afterSet_inv s.rules (readRules_ok h.strings h.attributes hOk) ?_
      split
      · rename_i hNone
        rw [hNone]
        exact List.Perm.refl _
      · exact List.Perm.refl _
    · rw [hFind] at hOk
      refine afterSet_inv ((before ++ behind).flatMap Prod.snd)
        (readRules_ok (h.strings.congr (findMap_perm hFind))
          (h.attributes.congr (findMap_perm hFind)) hOk) ?_
      split
      · rename_i hNone
        rw [hNone.2]
        exact List.Perm.refl _
      · have hPerm := flatMap_perm (fun r => [r]) before behind
          (c, (readRules (readMessage text) s.heap rules).rules)
        simpa using hPerm
  · rcases redirected with - | -
    · rw [step]
      rcases hFind : findMap c s.maps with - | ⟨before, rules, behind⟩
      · exact ⟨{ s with updates := [] }, rfl, h.strings, h.attributes,
          fun u hu => absurd hu List.not_mem_nil⟩
      · obtain ⟨hFree, hStr, hAttr⟩ :=
          freeRules_run (h.strings.congr (findMap_perm hFind))
            (h.attributes.congr (findMap_perm hFind))
        rcases hRun : freeRules s.heap rules with ⟨result, heap⟩
        rw [hRun] at hFree hStr hAttr
        obtain rfl : result = .ok ⟨⟩ := hFree
        exact ⟨⟨heap, before ++ behind, _, []⟩, by dsimp only; rw [hRun], hStr, hAttr,
          fun u hu => absurd hu List.not_mem_nil⟩
    · exact ⟨{ s with updates := [] }, rfl, h.strings, h.attributes,
        fun u hu => absurd hu List.not_mem_nil⟩

end

/-- The rules are consistent after every command and every closed channel. -/
theorem rules_kept (ops : List Op) (hOk : Meets step StepOk .init ops) (k : Nat) :
    ∃ s, run step .init (ops.take k) = some s ∧ Consistent s := by
  obtain ⟨s, hRun, hInv⟩ :=
    run_total (P := Inv) (fun s op hInv hOp => step_inv hInv hOp) inv_init (hOk.take k)
  exact ⟨s, hRun, hInv.consistent⟩

/-- A rule with a source that can be read. -/
theorem rules_kept_set :
    ∃ s, run step .init ([.set 1 (ascii "[\x7b\"Source\":\"a\"\x7d]")].take 1) = some s ∧
    Consistent s := by
  refine rules_kept [.set 1 (ascii "[\x7b\"Source\":\"a\"\x7d]")] ⟨?_, fun _ _ => trivial⟩ 1
  have hMessage : readMessage (ascii "[\x7b\"Source\":\"a\"\x7d]") =
      .rule ⟨[(ascii "Source", ascii "\"a\"")], none⟩ .done := by decide +kernel
  have hGood : ∀ a ∈ [(ascii "Source", ascii "\"a\"")], ¬ Bad a := by decide +kernel
  rw [StepOk, hMessage]
  refine ⟨⟨fun hRaises => absurd hRaises (not_raises fun m hm => ?_),
    fun _ => ⟨hGood, fun f => ?_⟩⟩,
    fun _ => trivial⟩
  · obtain rfl := List.mem_singleton.1 hm
    exact hGood _ List.mem_cons_self
  · rcases f with - | - | - | - | - | - <;> rfl

/-- The source of the rule is freed, its new value cannot be read, and it is freed again. -/
theorem source_freed_twice : ¬ ∃ s, run step .init
    [.set 1 (ascii "[\x7b\"Source\":\"a\"\x7d]"), .set 1 (ascii "[\x7b\"Source\":5\x7d]"),
    .close 1 false] = some s ∧
      Consistent s := by
  rintro ⟨s, hRun, -⟩
  have hNone :
    run step .init [.set 1 (ascii "[\x7b\"Source\":\"a\"\x7d]"),
    .set 1 (ascii "[\x7b\"Source\":5\x7d]"),
      .close 1 false] = none := by decide +kernel
  rw [hNone] at hRun
  cases hRun

end TcfAgent.PathMap

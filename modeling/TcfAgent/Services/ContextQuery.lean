import TcfAgent.Framework.JsonText

/-!
# Context queries: the parser and the matcher

A context query names a set of contexts by a path of parts separated by `/`. `parse_context_query`
leaves the parts in two file-level variables, and `run_context_query` compares a context with
what was left there.

Main results:

* `Parses.unique`    — the parser has one result;
* `matchAttribute_iff` — the comparator registered for the name decides, or else a default one.
-/

namespace TcfAgent.ContextQuery

open TcfAgent.JsonText (Text isDigit ascii)

/-! ## The items of a query -/

/-- `Invalid context query syntax: ` and one of these. -/
inductive SyntaxError where
  | wildcard
  | number
  | symbol
  | escape
  | closingQuote
  | value
  | severalValues
  | item
  | property
  deriving DecidableEq, Repr

def SyntaxError.text : SyntaxError → String
  | .wildcard => "* and ** are the only valid wildcards"
  | .number => "expecting [0-9] or ',' or '/' after number"
  | .symbol => "unquoted strings must only contain alphanumerical characters or '_'"
  | .escape => "\" and \\ are the only characters that can be escaped"
  | .closingQuote => "missing closing quote character"
  | .value => "missing value"
  | .severalValues => "can't assign several values to a property at the same time"
  | .item => "missing context name, property or wildcard"
  | .property => "missing property"

/-- What a sub-parser has read, and the text it has left. -/
abbrev Reading (α : Type) := Except SyntaxError (α × Text)

/-- The text is at its end or goes on with one of the characters. -/
def follows (cs : List UInt8) : Text → Bool
  | [] => true
  | c :: _ => cs.contains c

/-- Neither an item nor a value starts here: `/`, `=`, `,` or the end. -/
abbrev missing (q : Text) : Bool := follows [47, 61, 44] q

def isSymbolChar (c : UInt8) : Bool :=
  c = 95 || isDigit c || (97 ≤ c && c ≤ 122) || (65 ≤ c && c ≤ 90)

/-- `ch` is the `*` the caller has seen. -/
def parseWildcard (ch : UInt8) : Text → Reading Text
  | 42 :: c => if follows [47] c then .ok ([ch, 42], c) else .error .wildcard
  | c => if follows [47] c then .ok ([ch], c) else .error .wildcard

def parseNumber (q : Text) : Reading Text :=
  if follows [44, 47] (q.dropWhile isDigit) then .ok (q.takeWhile isDigit, q.dropWhile isDigit)
  else .error .number

def parseSymbol (q : Text) : Reading Text :=
  if follows [47, 61, 44] (q.dropWhile isSymbolChar) then
    .ok (q.takeWhile isSymbolChar, q.dropWhile isSymbolChar)
  else .error .symbol

/-- Puts a character in front of what was read. -/
def addChar (ch : UInt8) : Reading Text → Reading Text
  | .ok (s, c) => .ok (ch :: s, c)
  | .error e => .error e

/-- From behind the opening quote to behind the closing one; what comes after it is not looked
at. -/
def parseQuotedString : Text → Reading Text
  | [] => .error .closingQuote
  | [ch] => if ch = 34 then .ok ([], []) else if ch = 92 then .error .escape
    else .error .closingQuote
  | ch :: d :: c =>
    if ch = 34 then .ok ([], d :: c)
    else if ch = 92 then
      if d = 92 ∨ d = 34 then addChar d (parseQuotedString c) else .error .escape
    else addChar ch (parseQuotedString (d :: c))

def parseString : Text → Reading Text
  | 34 :: c => parseQuotedString c
  | c => parseSymbol c

def parseValue : Text → Reading Text
  | [] => parseSymbol []
  | ch :: c =>
    if isDigit ch then parseNumber (ch :: c)
    else if ch = 34 then parseQuotedString c
    else parseSymbol (ch :: c)

/-- A property, or a lone string: then there is no name. -/
structure Attribute where
  name  : Option Text
  value : Text
  deriving DecidableEq, Repr

/-- From behind the `=`. -/
def parseAssigned (name : Text) (c : Text) : Reading Attribute :=
  if missing c then .error .value
  else match parseValue c with
    | .error e => .error e
    | .ok (value, c) =>
      if c.head? = some 61 then .error .severalValues else .ok (⟨some name, value⟩, c)

def parseProperty (q : Text) : Reading Attribute :=
  match parseString q with
  | .error e => .error e
  | .ok (s, 61 :: c) => parseAssigned s c
  | .ok (s, c) => .ok (⟨none, s⟩, c)

/-- One turn of the loop of `parse_context_query` up to the delimiter. -/
def parseItem : Text → Reading Attribute
  | [] => parseProperty []
  | ch :: c =>
    if ch = 42 then
      match parseWildcard ch c with
      | .error e => .error e
      | .ok (s, c) => .ok (⟨none, s⟩, c)
    else parseProperty (ch :: c)

/-! ## The whole query -/

/-- The file-level variables: the parts, the last one first, with the last attribute of each
first; and whether the path starts at the root. -/
structure Query where
  attrs   : List (List Attribute)
  absPath : Bool
  deriving DecidableEq, Repr

/-- The loop, with the parts it has published, the attributes of the part it is in, and the rest
of the text. `none`: it goes on forever, or follows a null pointer at the end. -/
def parseLoop (absPath : Bool) : Nat → List (List Attribute) → List Attribute → Text →
    Option (Query × Option SyntaxError)
  | _, _, [], [] => none
  | _, attrs, a :: attr, [] => some (⟨(a :: attr) :: attrs, absPath⟩, none)
  | 0, _, _, _ :: _ => none
  | fuel + 1, attrs, attr, ch :: c =>
    match parseItem (ch :: c) with
    | .error e => some (⟨attrs, absPath⟩, some e)
    | .ok (a, 47 :: q) =>
      -- start parsing a new part
      if missing q then some (⟨(a :: attr) :: attrs, absPath⟩, some .item)
      else parseLoop absPath fuel ((a :: attr) :: attrs) [] q
    | .ok (a, 44 :: q) =>
      -- start parsing a new property
      if missing q then some (⟨attrs, absPath⟩, some .property)
      else parseLoop absPath fuel attrs (a :: attr) q
    | .ok (a, q) => parseLoop absPath fuel attrs (a :: attr) q

/-- Behind the leading `/`, if there is one. -/
def parsePath (fuel : Nat) (absPath : Bool) (q : Text) : Option (Query × Option SyntaxError) :=
  if missing q then some (⟨[], absPath⟩, some .item) else parseLoop absPath fuel [] [] q

/-- `parse_context_query`: what is in the file-level variables afterwards, and the error. The
variables are reset before the text is looked at, so `_before` is lost. -/
def parseContextQuery (fuel : Nat) (_before : Query) :
    Option Text → Option (Query × Option SyntaxError)
  | none => some (⟨[], false⟩, none)
  | some [] => some (⟨[], false⟩, none)
  | some (47 :: q) => parsePath fuel true q
  | some q => parsePath fuel false q

/-- The parser comes to an end on `q`, with this result. -/
def Parses (q : Text) (r : Query × Option SyntaxError) : Prop :=
  ∃ fuel, ∀ before, parseContextQuery fuel before (some q) = some r

section

variable {absPath : Bool} {r r' : Query × Option SyntaxError} {fuel fuel' : Nat} {q : Text}

theorem parseLoop_mono (hLe : fuel ≤ fuel') {attrs : List (List Attribute)}
    {attr : List Attribute} (h : parseLoop absPath fuel attrs attr q = some r) :
    parseLoop absPath fuel' attrs attr q = some r := by
  induction fuel generalizing fuel' attrs attr q with
  | zero =>
    cases q with
    | nil => cases attr <;> simpa only [parseLoop] using h
    | cons ch c => cases attr <;> simp [parseLoop] at h
  | succ fuel ih =>
    obtain ⟨fuel', rfl⟩ : ∃ n, fuel' = n + 1 := ⟨fuel' - 1, by omega⟩
    have hLe' : fuel ≤ fuel' := by omega
    cases q with
    | nil => cases attr <;> simpa only [parseLoop] using h
    | cons ch c =>
      rw [parseLoop.eq_def] at h ⊢
      simp only at h ⊢
      split at h
      · exact h
      · split at h
        · next hMissing => rwa [if_pos hMissing]
        · next hMissing =>
          rw [if_neg hMissing]
          exact ih hLe' h
      · split at h
        · next hMissing => rwa [if_pos hMissing]
        · next hMissing =>
          rw [if_neg hMissing]
          exact ih hLe' h
      · exact ih hLe' h

theorem parsePath_mono (hLe : fuel ≤ fuel') (h : parsePath fuel absPath q = some r) :
    parsePath fuel' absPath q = some r := by
  unfold parsePath at h ⊢
  split at h
  · next hMissing => rwa [if_pos hMissing]
  · next hMissing =>
    rw [if_neg hMissing]
    exact parseLoop_mono hLe h

theorem parseContextQuery_mono (hLe : fuel ≤ fuel') {before : Query} {q : Option Text}
    (h : parseContextQuery fuel before q = some r) :
    parseContextQuery fuel' before q = some r := by
  unfold parseContextQuery at h ⊢
  split at h
  · exact h
  · exact h
  · exact parsePath_mono hLe h
  · exact parsePath_mono hLe h

/-- The parser has one result. -/
theorem Parses.unique (h : Parses q r) (h' : Parses q r') : r = r' := by
  obtain ⟨m, hm⟩ := h
  obtain ⟨n, hn⟩ := h'
  have h1 := parseContextQuery_mono (Nat.le_max_left m n) (hm ⟨[], false⟩)
  have h2 := parseContextQuery_mono (Nat.le_max_right m n) (hn ⟨[], false⟩)
  rw [h1] at h2
  exact Option.some.inj h2

end

/-! ## Contexts -/

/-- What a comparator may look at in a context; `ext` is what the other services keep there. -/
structure ContextData (ε : Type) where
  id   : Text
  name : Option Text
  ext  : ε

/-- A context of the tree, which is its data and the contexts above it. -/
inductive Context (ε : Type) where
  | root (data : ContextData ε)
  | child (data : ContextData ε) (parent : Context ε)

namespace Context

variable {ε : Type}

def data : Context ε → ContextData ε
  | .root d => d
  | .child d _ => d

def parent : Context ε → Option (Context ε)
  | .root _ => none
  | .child _ p => some p

/-- The contexts from this one up to the root. -/
def up : Context ε → List (Context ε)
  | .root d => [.root d]
  | .child d p => .child d p :: p.up

/-- The contexts from the root down to this one. -/
def path (c : Context ε) : List (Context ε) := c.up.reverse

end Context

/-! ## Comparators -/

/-- The callback may ask for the name that is being compared, which is its first argument here:
`get_context_query_attr_name`. -/
structure Comparator (ε : Type) where
  attrName : Text
  callback : Text → Context ε → Text → Bool

def toLower (c : UInt8) : UInt8 := if 65 ≤ c && c ≤ 90 then c + 32 else c

/-- `strcasecmp` finds no difference. -/
def sameName (a b : Text) : Bool := a.map toLower = b.map toLower

/-- `DEFAULT_CONTEXT_QUERY_COMPARATOR` -/
def defaultComparator : Text := ascii "*"

section

variable {ε : Type}

def cmpId (_key : Text) (ctx : Context ε) (v : Text) : Bool := ctx.data.id = v

/-- A context without a name goes by its ID. -/
def cmpName (_key : Text) (ctx : Context ε) (v : Text) : Bool :=
  ctx.data.name.getD ctx.data.id = v

/-- `add_context_query_comparator`: the new one is found first. -/
def addComparator (attrName : Text) (callback : Text → Context ε → Text → Bool)
    (comparators : List (Comparator ε)) : List (Comparator ε) :=
  ⟨attrName, callback⟩ :: comparators

/-- The comparators after `ini_context_query_service`. -/
def iniComparators : List (Comparator ε) :=
  addComparator (ascii "Name") cmpName (addComparator (ascii "ID") cmpId [])

def matchAttribute (comparators : List (Comparator ε)) (ctx : Context ε) (key val : Text) : Bool :=
  match comparators.find? fun c => sameName c.attrName key with
  | some c => c.callback key ctx val
  | none =>
    -- comparator not found, check default comparators
    comparators.any fun c => c.attrName = defaultComparator && c.callback key ctx val

/-- The comparator that is registered for the name. -/
def Registered (comparators : List (Comparator ε)) (key : Text) (c : Comparator ε) : Prop :=
  comparators.find? (fun c => sameName c.attrName key) = some c

/-- What is said of a context by `key=val`: the comparator registered for the name says so, and
where there is none, one of the default comparators does. -/
def Holds (comparators : List (Comparator ε)) (ctx : Context ε) (key val : Text) : Prop :=
  (∃ c, Registered comparators key c ∧ c.callback key ctx val = true) ∨
    (∀ c, ¬ Registered comparators key c) ∧
      ∃ c ∈ comparators, c.attrName = defaultComparator ∧ c.callback key ctx val = true

theorem matchAttribute_iff (comparators : List (Comparator ε)) (ctx : Context ε)
    (key val : Text) :
    matchAttribute comparators ctx key val = true ↔ Holds comparators ctx key val := by
  unfold matchAttribute Holds Registered
  split
  · next c hFind => simp [hFind]
  · next hFind => simp [hFind]

/-! ## The matcher -/

/-- The attributes of a part say nothing against the context. -/
def matchAttributes (comparators : List (Comparator ε)) (ctx : Context ε) :
    List Attribute → Bool
  | [] => true
  | ⟨some key, val⟩ :: attr =>
    if matchAttribute comparators ctx key val then matchAttributes comparators ctx attr else false
  | ⟨none, val⟩ :: attr =>
    if val = ascii "*" then matchAttributes comparators ctx attr
    else if matchAttribute comparators ctx (ascii "Name") val then
      matchAttributes comparators ctx attr
    else false

/-- The part counts as `**` when the attribute at its head, which is the last one written, does. -/
def isAnyPath : List Attribute → Bool
  | ⟨none, val⟩ :: _ => val = ascii "**"
  | _ => false

/-- Some context from this one up to the root is matched. -/
def anyUp (f : Context ε → Bool) : Context ε → Bool
  | .root d => f (.root d)
  | .child d p => f (.child d p) || anyUp f p

/-- `match`, with the part to be matched at `ctx` and the parts before it. -/
def matchPath (comparators : List (Comparator ε)) (absPath : Bool) :
    List Attribute → List (List Attribute) → Context ε → Bool
  | attr, [], ctx =>
    if isAnyPath attr then true
    else if absPath && ctx.parent.isSome then false
    else matchAttributes comparators ctx attr
  | attr, part :: attrs, ctx =>
    if isAnyPath attr then anyUp (matchPath comparators absPath part attrs) ctx
    else match ctx.parent with
      | none => false
      | some parent =>
        if matchPath comparators absPath part attrs parent then
          matchAttributes comparators ctx attr
        else false

def runContextQuery (comparators : List (Comparator ε)) (ctx : Context ε) (q : Query) : Bool :=
  match q.attrs with
  | [] => !q.absPath
  | attr :: attrs => matchPath comparators q.absPath attr attrs ctx

/-- `context_query`: the result of the parser is ignored. -/
def contextQuery (fuel : Nat) (before : Query) (comparators : List (Comparator ε))
    (ctx : Context ε) (q : Option Text) : Option Bool :=
  (parseContextQuery fuel before q).map fun r => runContextQuery comparators ctx r.1

end

end TcfAgent.ContextQuery

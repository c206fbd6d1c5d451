import TcfAgent.Framework.JsonText

/-!
# File names in canonic form

`canonic_path_map_file_name` and `is_absolute_path` of `services/pathmap.c`, and what file names
mean: the location that a name has, with `.` and `..` resolved in the text, from given current
directories.

A text has no null character. The codes are 46 for a dot, 47 and 92 for the separators, 58 for a
colon.
-/

namespace TcfAgent.PathNames

open TcfAgent.JsonText (Text)

def isSeparator (c : UInt8) : Bool := c = 47 || c = 92

/-! ## The canonic form -/

/-- Whether a component starts behind what is in the buffer. -/
def atStart (out : Text) : Bool := out = [] || out.head? = some 47

/-- The buffer without its last component, when `..` behind it takes it away. The first dot is not
in `fnm` any more. -/
def dropComponent (out fnm : Text) : Option Text :=
  match out, fnm with
  | 47 :: buf, 46 :: d :: _ =>
    let component := (buf.takeWhile (· ≠ 47)).reverse
    if isSeparator d ∧ component ≠ [] ∧ component ≠ [46] ∧ component ≠ [46, 46] then
      some (buf.dropWhile (· ≠ 47))
    else none
  | _, _ => none

/-- The letter of a drive is put into the buffer as a capital. -/
def drive (out : Text) (ch : UInt8) (fnm : Text) : UInt8 :=
  if out = [] ∧ 97 ≤ ch ∧ ch ≤ 122 ∧ fnm.head? = some 58 then ch - 32 else ch

/-- The loop of `canonic_path_map_file_name`. The buffer is `out`, its last character first; the
next `skip` characters are passed over. -/
def canonicLoop : (skip : Nat) → (out fnm : Text) → Text
  | _, out, [] => out
  | skip + 1, out, _ :: fnm => canonicLoop skip out fnm
  | 0, out, c :: fnm =>
    let ch := if c = 92 then 47 else c
    if ch = 47 ∧ 2 ≤ out.length ∧ out.head? = some 47 then canonicLoop 0 out fnm
    else if ch = 47 ∧ fnm = [] ∧ out ≠ [] ∧ out.head? ≠ some 58 then out
    else if ch = 46 ∧ atStart out then
      if fnm.head?.any isSeparator then canonicLoop 1 out fnm
      else match dropComponent out fnm with
        | some out => canonicLoop 2 out fnm
        | none => canonicLoop 0 (ch :: out) fnm
    else canonicLoop 0 (drive out ch fnm :: out) fnm

/-- `canonic_path_map_file_name` -/
def canonicPathMapFileName (fnm : Text) : Text := (canonicLoop 0 [] fnm).reverse

/-- `is_absolute_path` -/
def isAbsolutePath : Text → Bool
  | [] => false
  | c :: rest => isSeparator c || match rest with
    | 58 :: d :: _ => isSeparator d
    | _ => false

/-! ## What names mean -/

/-- The texts between the separators. -/
def components : Text → List Text
  | [] => [[]]
  | c :: s => if isSeparator c then [] :: components s else (components s).modifyHead (c :: ·)

/-- The letter as a capital. -/
def upper (c : UInt8) : UInt8 := if 97 ≤ c ∧ c ≤ 122 then c - 32 else c

/-- One component further; the last component is first. There is nothing above the root. -/
def enter (dir : List Text) (c : Text) : List Text :=
  if c = [] ∨ c = [46] then dir
  else if c = [46, 46] then dir.tail
  else c :: dir

/-- One component after the other. -/
def resolve (dir : List Text) (cs : List Text) : List Text := cs.foldl enter dir

/-- A drive, and a directory on it. -/
abbrev Location := Option UInt8 × List Text

/-- Where a name leads to, when `start` has the current directory of each drive. A name begins at
the root when a separator is its first character, or comes after the colon of the drive. -/
def locate (start : Option UInt8 → List Text) (name : Text) : Location :=
  match components name with
  | (x :: 58 :: c) :: cs =>
    (some (upper x), resolve (if c = [] ∧ cs ≠ [] then [] else start (some (upper x))) (c :: cs))
  | c :: cs => (none, resolve (if c = [] ∧ cs ≠ [] then [] else start none) (c :: cs))
  | [] => (none, start none)

/-- What a canonic name of a file is for. -/
structure Canonic (s : Text) : Prop where
  idempotent  : canonicPathMapFileName (canonicPathMapFileName s) = canonicPathMapFileName s
  noBackslash : 92 ∉ canonicPathMapFileName s
  noDot       : ¬ [47, 46, 47] <:+: canonicPathMapFileName s
  noDouble    : ¬ [47, 47] <:+: (canonicPathMapFileName s).drop 1
  absolute    : isAbsolutePath (canonicPathMapFileName s) = isAbsolutePath s
  location    : ∀ start, locate start (canonicPathMapFileName s) = locate start s

end TcfAgent.PathNames

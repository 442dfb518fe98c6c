-- SUMMARY: pathlib's pure POSIX paths and fnmatch on lists of characters.
import LocalRag.Base.PyText

/-!
# Pure paths and shell patterns

`PurePath` is `pathlib.PurePosixPath`: a root or none, and the components. The
second half is `fnmatch.fnmatch`, where `*` also matches `/`.
-/

namespace PyPath

open PyText

/-- A component of a path. -/
abbrev Name := Text

structure PurePath where
  absolute : Bool
  names : List Name
  deriving DecidableEq

namespace PurePath

/-- `Path(text)`. -/
def parse (text : Text) : PurePath where
  absolute := text.head? == some '/'
  names := (split ['/'] text).filter fun n => n != [] && n != ['.']

/-- `str(p)`. -/
def str (p : PurePath) : Text :=
  if p.absolute then '/' :: join ['/'] p.names
  else if p.names = [] then ['.']
  else join ['/'] p.names

/-- `p.parts`. -/
def parts (p : PurePath) : List Text :=
  if p.absolute then ['/'] :: p.names else p.names

/-- `p.name`. -/
def name (p : PurePath) : Name := p.names.getLast?.getD []

/-- `p.suffix`: the final component from its last dot on, unless the dot is the
first or the last character. -/
def suffix (p : PurePath) : Text :=
  let n := p.name
  let i := n.length - 1 - (n.reverse.takeWhile (· != '.')).length
  if '.' ∈ n ∧ 0 < i ∧ i < n.length - 1 then n.drop i else []

/-- `p.parent`. -/
def parent (p : PurePath) : PurePath := { p with names := p.names.dropLast }

/-- `p / n`. -/
def child (p : PurePath) (n : Name) : PurePath := { p with names := p.names ++ [n] }

/-- `p.is_relative_to(root)`. -/
def isRelativeTo (p root : PurePath) : Bool :=
  p.absolute == root.absolute && root.names.isPrefixOf p.names

theorem isRelativeTo_iff {p root : PurePath} :
    p.isRelativeTo root ↔ p.absolute = root.absolute ∧ root.names <+: p.names := by
  simp [isRelativeTo]

end PurePath

/-! ## fnmatch -/

/-- An element of a pattern: any run of characters, or one character of a kind. -/
inductive Glob where
  | star
  | one (accepts : Char → Bool)

/-- The ranges and single characters between `[` and `]`. A range whose ends are
out of order is empty. -/
def inSet : List Char → Char → Bool
  | lo :: '-' :: hi :: rest, c => (lo ≤ c && c ≤ hi) || inSet rest c
  | x :: rest, c => x == c || inSet rest c
  | [], _ => false

/-- A set, with its leading `!` if it has one. -/
def setAccepts : List Char → Char → Bool
  | '!' :: stuff, c => !inSet stuff c
  | stuff, c => inSet stuff c

/-- Length of the set that starts after a `[`: the closing `]` is the first one
that is not the first character of the set, a leading `!` not counted. -/
def setLength (pat : List Char) : Option ℕ :=
  let lead := match pat with
    | '!' :: ']' :: _ => 2
    | '!' :: _ => 1
    | ']' :: _ => 1
    | _ => 0
  let rest := pat.drop lead
  if ']' ∈ rest then some (lead + rest.idxOf ']') else none

/-- `fnmatch.translate`, to pattern elements. `skip` characters of a set already
read are left to pass over. -/
def translate : List Char → ℕ → List Glob
  | [], _ => []
  | _ :: pat, skip + 1 => translate pat skip
  | '*' :: pat, 0 => .star :: translate pat 0
  | '?' :: pat, 0 => .one (fun _ => true) :: translate pat 0
  | '[' :: pat, 0 =>
    match setLength pat with
    | some n => .one (setAccepts (pat.take n)) :: translate pat (n + 1)
    | none => .one (· == '[') :: translate pat 0
  | c :: pat, 0 => .one (· == c) :: translate pat 0

def globMatches : List Glob → Text → Bool
  | [], t => t.isEmpty
  | .star :: gs, t => t.tails.any (globMatches gs)
  | .one accepts :: gs, c :: t => accepts c && globMatches gs t
  | .one _ :: _, [] => false

/-- `fnmatch.fnmatch(t, pat)` on a POSIX system. -/
def fnmatch (t : Text) (pat : Text) : Bool := globMatches (translate pat 0) t

example : fnmatch "my_secret.md".toList "*secret*".toList = true := by decide
example : fnmatch "a-c".toList "a[!x-z]?".toList = true := by decide

end PyPath

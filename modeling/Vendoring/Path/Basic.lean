/-
# Paths

A path is kept as it was written and compared by what it means. Its components
are the root, a leading `.`, every `..`, and the names between slashes; repeated
slashes, a trailing slash and a `.` anywhere but in front are padding that the
components do not show. Two spellings with equal components are the same key of
a `PathMap`, while printing always gives the spelling that was stored.

Nothing in this module looks at a file tree.
-/

import Std.Data.TreeMap
import Vendoring.Text.Split

namespace Vendoring

open Text

/-- One step of a path. -/
inductive Component
  /-- The root of the file tree, in front of an absolute path. -/
  | root
  /-- The directory itself, a `.` in front of a relative path. -/
  | here
  /-- The enclosing directory, `..`. -/
  | up
  /-- An entry of a directory. -/
  | name (text : String)
  deriving DecidableEq, Repr

namespace Component

/-- The place of a component's kind in the order of components. -/
def rank : Component → Nat
  | root => 0
  | here => 1
  | up => 2
  | name _ => 3

/-- How the component is written. The root is the empty text in front of a slash. -/
def text : Component → String
  | root => ""
  | here => "."
  | up => ".."
  | name s => s

/-- Components are ordered by kind, and names by their characters. -/
instance : Ord Component where
  compare := compareLex (compareOn rank) (compareOn text)

instance : Std.TransOrd Component :=
  inferInstanceAs (Std.TransCmp (compareLex (compareOn rank) (compareOn text)))

instance : Std.LawfulEqOrd Component where
  eq_of_compare {a b} h := by
    obtain ⟨hrank, htext⟩ :=
      Ordering.then_eq_eq.1 (show (compare a.rank b.rank).then (compare a.text b.text) = .eq from h)
    have hrank : a.rank = b.rank := Std.LawfulEqOrd.eq_of_compare hrank
    have htext : a.text = b.text := Std.LawfulEqOrd.eq_of_compare htext
    cases a <;> cases b <;> simp_all [rank, text]

/-- The component that a piece of text between slashes stands for. -/
def ofSegment (segment : List Char) : Component :=
  if segment = ['.', '.'] then up
  else if segment = ['.'] then here
  else name (String.ofList segment)

end Component

/-- A path in the spelling that it was given. -/
structure Path where
  /-- The spelling. -/
  text : String
  deriving DecidableEq, Repr, Inhabited

namespace Path

/-- Whether a piece between slashes only pads the path. -/
def isPadding (segment : List Char) : Bool :=
  segment = [] || segment = ['.']

/-- The pieces between slashes. The first is empty exactly if the path is
absolute or has no text at all. -/
def segments (p : Path) : List (List Char) :=
  splitOn '/' p.text.toList

/-- Whether the path starts at the root. -/
def isAbsolute (p : Path) : Bool :=
  p.text.toList.head? = some '/'

/-- The first component of a path that begins with the given piece. -/
def leading (p : Path) (first : List Char) : List Component :=
  if p.isAbsolute then [.root]
  else if first = [] then []
  else [Component.ofSegment first]

/-- The components of the path, from the root or the first name onwards. -/
def components (p : Path) : List Component :=
  match p.segments with
  | [] => []
  | first :: rest =>
    p.leading first ++ (rest.filter fun s => !isPadding s).map Component.ofSegment

/-- Paths are compared component by component. -/
instance : Ord Path where
  compare := compareOn components

instance : Std.TransOrd Path :=
  inferInstanceAs (Std.TransCmp (compareOn components))

/-- Whether two spellings mean the same path. -/
def SameAs (p q : Path) : Prop :=
  p.components = q.components

instance (p q : Path) : Decidable (p.SameAs q) :=
  inferInstanceAs (Decidable (p.components = q.components))

theorem compare_eq_iff {p q : Path} : compare p q = .eq ↔ p.SameAs q :=
  show compare p.components q.components = .eq ↔ _ from Std.LawfulEqCmp.compare_eq_iff_eq

/-- The path whose pieces are `first` and then the given ones. -/
def ofSegments (first : List Char) (rest : List (List Char)) : Path :=
  if first = [] && rest.isEmpty then ⟨"/"⟩
  else ⟨String.ofList (joinWith '/' (first :: rest))⟩

/-- The plainest spelling of a list of components. -/
def ofComponents : List Component → Path
  | [] => ⟨""⟩
  | c :: cs => ofSegments c.text.toList (cs.map fun d => d.text.toList)

/-- `q` seen from the directory `p`. An absolute `q` stands for itself, and an
empty `q` leaves a trailing slash. -/
def join (p q : Path) : Path :=
  if q.isAbsolute || p.text = "" then q
  else if p.text.toList.getLast? = some '/' then ⟨p.text ++ q.text⟩
  else ⟨p.text ++ "/" ++ q.text⟩

instance : HDiv Path String Path where
  hDiv p name := p.join ⟨name⟩

/-- The paths met when the last pieces are removed one component at a time. The
pieces are given last first. -/
def shorterOf (first : List Char) : List (List Char) → List Path
  | [] => []
  | segment :: earlier =>
    if isPadding segment then shorterOf first earlier
    else ofSegments first (earlier.dropWhile isPadding).reverse :: shorterOf first earlier

/-- The directories that enclose the path, innermost first. A relative path
ends in the empty path, which is the directory that it is relative to. -/
def parents (p : Path) : List Path :=
  match p.segments with
  | [] => []
  | first :: rest =>
    shorterOf first rest.reverse ++ (if p.isAbsolute || first = [] then [] else [⟨""⟩])

/-- The directory that holds the path; the root and the empty path have none. -/
def parent? (p : Path) : Option Path :=
  p.parents.head?

/-- The path itself and then the directories that enclose it. -/
def ancestors (p : Path) : List Path :=
  p :: p.parents

/-- The last component, if it is a name. -/
def fileName? (p : Path) : Option String :=
  match p.components.getLast? with
  | some (.name s) => some s
  | _ => none

/-- Whether the components of `base` are the first ones of the path. -/
def StartsWith (p base : Path) : Prop :=
  base.components <+: p.components

instance (p base : Path) : Decidable (p.StartsWith base) :=
  inferInstanceAs (Decidable (base.components <+: p.components))

/-- Whether the last component is the given name. -/
def endsWithName (p : Path) (name : String) : Bool :=
  p.components.getLast? = some (.name name)

/-- The pieces after the first `n` that are not padding. -/
def dropSegments : Nat → List (List Char) → List (List Char)
  | 0, segments => segments
  | _ + 1, [] => []
  | n + 1, segment :: rest =>
    if isPadding segment then dropSegments (n + 1) rest else dropSegments n rest

/-- Remove padding from the end of a list of pieces. -/
def trimPadding (segments : List (List Char)) : List (List Char) :=
  (segments.reverse.dropWhile isPadding).reverse

/-- What follows `base` in the path, if the path starts with it. The rest keeps
its spelling up to padding at its ends. -/
def below? (p base : Path) : Option Path :=
  if p.StartsWith base then
    match base.components.length, p.segments with
    | _, [] => some p
    | 0, first :: rest =>
      if p.text = "" then some p else some (ofSegments first (trimPadding rest))
    | n + 1, _ :: rest =>
      let kept := (dropSegments n rest).dropWhile isPadding
      some ⟨String.ofList (joinWith '/' (trimPadding kept))⟩
  else none

/-- What follows `base` in the path, and the path itself if it lies elsewhere. -/
def belowD (p base : Path) : Path :=
  (p.below? base).getD p

end Path

/-- A finite map from paths, in which spellings of one path are one key. -/
abbrev PathMap (α : Type) := Std.TreeMap Path α

/-- A finite set of paths. -/
abbrev PathSet := PathMap Unit

namespace PathSet

/-- The members of a set of paths in their order. -/
def toPaths (s : PathSet) : List Path :=
  s.toList.map (·.1)

end PathSet

end Vendoring

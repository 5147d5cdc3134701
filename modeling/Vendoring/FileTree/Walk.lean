/-
# Walking through a file tree

A walk from a path meets what the path leads to and, if that is a directory, then
everything below it: depth first, with the entries of a directory in the order of
their names. A directory whose path is too long to be looked up is met, but the
walk does not go into it.

Every entry of a directory has fewer entries below it than the directory, so a
walk ends.
-/

import Vendoring.FileTree.Basic
import Vendoring.Sorting

namespace Vendoring

/-- Whether an entry is a file. -/
def Entry.isFile : Entry → Bool
  | file _ => true
  | directory => false

namespace FileTree

variable (t : FileTree) {loc full : Location} {name : String}

/-- The name under which an entry lies in a directory. -/
def nameIn? (dir loc : Location) : Option String :=
  match locationBelow? dir loc with
  | some [name] => some name
  | _ => none

theorem nameIn?_eq_some_iff : nameIn? loc full = some name ↔ full = loc ++ [name] := by
  constructor
  · intro h
    unfold nameIn? at h
    split at h
    · next hbelow => rw [eq_append_of_locationBelow? hbelow, Option.some.inj h]
    · simp at h
  · rintro rfl
    simp [nameIn?, locationBelow?]

/-- The names of what lies in a directory, sorted. -/
def namesIn (loc : Location) : List String :=
  sortBy (fun a b => (compare a b).isLE) (t.entries.keys.filterMap (nameIn? loc))

theorem mem_namesIn : name ∈ t.namesIn loc ↔ loc ++ [name] ∈ t.entries := by
  simp [namesIn, nameIn?_eq_some_iff]

theorem entry?_of_mem_namesIn (h : name ∈ t.namesIn loc) : t.entry? loc = some .directory :=
  t.parent_eq loc name (t.mem_namesIn.1 h)

/-- The number of entries at a location and below it. -/
def sizeAt (loc : Location) : Nat :=
  (t.entries.keys.filter loc.isPrefixOf).length

theorem sizeAt_lt (h : name ∈ t.namesIn loc) : t.sizeAt (loc ++ [name]) < t.sizeAt loc := by
  have hmem : loc ∈ t.entries := by
    rw [Std.TreeMap.mem_iff_isSome_getElem?, t.parent_eq loc name (t.mem_namesIn.1 h)]
    rfl
  -- what lies at the name or below it lies below the directory, and the directory does not
  have hfilter : t.entries.keys.filter (loc ++ [name]).isPrefixOf =
      (t.entries.keys.filter loc.isPrefixOf).filter (loc ++ [name]).isPrefixOf := by
    rw [List.filter_filter]
    refine List.filter_congr fun full _ => ?_
    rw [Bool.eq_iff_iff, Bool.and_eq_true, List.isPrefixOf_iff_prefix, List.isPrefixOf_iff_prefix]
    exact ⟨fun hbelow => ⟨hbelow, (List.prefix_append loc [name]).trans hbelow⟩, And.left⟩
  rw [sizeAt, sizeAt, hfilter, List.length_filter_lt_length_iff_exists]
  refine ⟨loc, List.mem_filter.2 ⟨Std.TreeMap.mem_keys.2 hmem, by simp⟩, fun hbelow => ?_⟩
  have hlen := (List.isPrefixOf_iff_prefix.1 hbelow).length_le
  rw [List.length_append, List.length_singleton] at hlen
  omega

/-- What a walk meets at a location and below it, seen from a path that leads to
the location. -/
def walkFrom (loc : Location) (p : Path) : List (Path × Entry) :=
  match t.entry? loc with
  | none => []
  | some (.file contents) => [(p, .file contents)]
  | some .directory =>
    (p, .directory) ::
      if refusal? p = none then
        (t.namesIn loc).attach.flatMap fun ⟨name, _⟩ => walkFrom (loc ++ [name]) (p / name)
      else []
termination_by t.sizeAt loc
decreasing_by exact t.sizeAt_lt ‹_›

/-- What a walk from a path meets, each entry with the path on which it is met. -/
def walk (p : Path) : List (Path × Entry) :=
  match t.locate p with
  | .ok loc => t.walkFrom loc p
  | .error _ => []

variable {t} {p : Path} {x : Path × Entry}

theorem walkFrom_directory (h : t.entry? loc = some .directory) :
    t.walkFrom loc p = (p, .directory) ::
      if refusal? p = none then
        (t.namesIn loc).flatMap fun name => t.walkFrom (loc ++ [name]) (p / name)
      else [] := by
  rw [walkFrom, h]
  simp only [List.flatMap_subtype, List.unattach_attach]

/-- A walk meets a directory and what it meets from the names in it. -/
theorem mem_walkFrom_directory (h : t.entry? loc = some .directory) :
    x ∈ t.walkFrom loc p ↔ x = (p, .directory) ∨
      refusal? p = none ∧ ∃ name ∈ t.namesIn loc, x ∈ t.walkFrom (loc ++ [name]) (p / name) := by
  rw [walkFrom_directory h, List.mem_cons]
  split <;> simp [*]

end FileTree

end Vendoring

/-
# Splitting and joining at a separator

Paths, specifiers and lists of names are all written with a one-character
separator. Splitting never gives the empty list, and joining the parts with the
separator gives the text back; in the other direction, parts that do not
contain the separator survive a round through text.
-/

namespace Vendoring.Text

/-- The parts of a text between occurrences of a separator, empty ones included. -/
def splitOn (sep : Char) : List Char → List (List Char)
  | [] => [[]]
  | c :: cs =>
    if c = sep then [] :: splitOn sep cs
    else
      match splitOn sep cs with
      | [] => [[c]]
      | part :: parts => (c :: part) :: parts

/-- The parts with the separator between each two. -/
def joinWith (sep : Char) : List (List Char) → List Char
  | [] => []
  | [part] => part
  | part :: next :: parts => part ++ sep :: joinWith sep (next :: parts)

variable {sep : Char}

theorem splitOn_ne_nil (sep : Char) (s : List Char) : splitOn sep s ≠ [] := by
  induction s with
  | nil => simp [splitOn]
  | cons c cs ih =>
    simp only [splitOn]
    split
    · simp
    · split <;> simp

@[simp] theorem joinWith_splitOn (sep : Char) (s : List Char) :
    joinWith sep (splitOn sep s) = s := by
  induction s with
  | nil => rfl
  | cons c cs ih =>
    simp only [splitOn]
    split
    · next h =>
      subst h
      match hs : splitOn c cs with
      | [] => exact absurd hs (splitOn_ne_nil c cs)
      | part :: parts => simp [joinWith, ← hs, ih]
    · match hs : splitOn sep cs with
      | [] => exact absurd hs (splitOn_ne_nil sep cs)
      | [part] => simpa [hs, joinWith] using ih
      | part :: next :: parts => simpa [hs, joinWith] using ih

theorem splitOn_of_not_mem {part : List Char} (h : sep ∉ part) :
    splitOn sep part = [part] := by
  induction part with
  | nil => rfl
  | cons c cs ih =>
    obtain ⟨hc, hcs⟩ := by simpa only [List.mem_cons, not_or] using h
    simp [splitOn, Ne.symm hc, ih hcs]

/-- Text up to the first separator is the first part, whatever follows. -/
theorem splitOn_append_cons {part : List Char} (h : sep ∉ part) (s : List Char) :
    splitOn sep (part ++ sep :: s) = part :: splitOn sep s := by
  induction part with
  | nil => simp [splitOn]
  | cons c cs ih =>
    obtain ⟨hc, hcs⟩ := by simpa only [List.mem_cons, not_or] using h
    simp [splitOn, Ne.symm hc, ih hcs]

theorem splitOn_joinWith {parts : List (List Char)} (hne : parts ≠ [])
    (h : ∀ part ∈ parts, sep ∉ part) : splitOn sep (joinWith sep parts) = parts := by
  induction parts with
  | nil => exact absurd rfl hne
  | cons part parts ih =>
    cases parts with
    | nil => simpa [joinWith] using splitOn_of_not_mem (h part (by simp))
    | cons next parts =>
      rw [joinWith, splitOn_append_cons (h part (by simp)),
        ih (by simp) fun q hq => h q (List.mem_cons_of_mem _ hq)]

/-- No part of a split text contains the separator. -/
theorem not_mem_of_mem_splitOn {s part : List Char} (h : part ∈ splitOn sep s) :
    sep ∉ part := by
  induction s generalizing part with
  | nil => simp only [splitOn, List.mem_singleton] at h; simp [h]
  | cons c cs ih =>
    simp only [splitOn] at h
    split at h
    · rcases List.mem_cons.1 h with rfl | h
      · simp
      · exact ih h
    · next hc =>
      match hs : splitOn sep cs with
      | [] => exact absurd hs (splitOn_ne_nil sep cs)
      | first :: parts =>
        rw [hs] at h
        rcases List.mem_cons.1 h with rfl | h
        · simp only [List.mem_cons, not_or]
          exact ⟨Ne.symm hc, ih (by simp [hs])⟩
        · exact ih (by simp [hs, h])

end Vendoring.Text

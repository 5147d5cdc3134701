/-
# The last dot of a name

A name is split at its last dot exactly if there is no dot behind it, so an extension holds
neither a dot nor a slash, and a name that is put together from a stem and an extension is
taken apart again. Everything that an extension decides depends on the last component of a path
only.
-/

import Mathlib.Data.List.TakeDrop
import Mathlib.Data.List.TakeWhile
import Vendoring.FileKind
import Vendoring.Proofs.Path.Plain

namespace Vendoring

/-- A name is its first half, the last dot and what follows the dot. -/
theorem splitAtLastDot_eq_some_iff {chars stem extension : List Char} :
    splitAtLastDot chars = some (stem, extension) ↔
      chars = stem ++ '.' :: extension ∧ '.' ∉ extension := by
  unfold splitAtLastDot
  rw [List.span_eq_takeWhile_dropWhile]
  constructor
  · intro h
    have hall := List.takeWhile_append_dropWhile (p := fun c => decide (c ≠ '.'))
      (l := chars.reverse)
    split at h
    · cases h
    · next after c before heq =>
      obtain ⟨htake, hdrop⟩ := Prod.mk.inj heq
      obtain ⟨rfl, rfl⟩ := Prod.mk.inj (Option.some.inj h)
      have hdot := List.head?_dropWhile_not (fun c => decide (c ≠ '.')) chars.reverse
      rw [hdrop] at hdot
      have hdot : c = '.' := by simpa using hdot
      rw [htake, hdrop, hdot] at hall
      constructor
      · rw [← List.reverse_reverse chars, ← hall, List.reverse_append, List.reverse_cons,
          List.append_assoc, List.singleton_append]
      · rw [List.mem_reverse, ← htake]
        intro hmem
        simpa using List.mem_takeWhile_imp hmem
  · rintro ⟨rfl, hdot⟩
    have hpass : ∀ c ∈ extension.reverse, decide (c ≠ '.') = true := by
      intro c hc
      rw [decide_eq_true_eq]
      rintro rfl
      exact hdot (List.mem_reverse.1 hc)
    have hchars : (stem ++ '.' :: extension).reverse = extension.reverse ++ '.' :: stem.reverse := by
      simp
    rw [hchars, List.takeWhile_append_of_pos hpass, List.dropWhile_append_of_pos hpass]
    simp

namespace Path

variable {p q : Path}

/-- An extension is a part of a name, and no dot is in it. -/
theorem not_mem_of_extension? {extension : String} (h : p.extension? = some extension) :
    '/' ∉ extension.toList ∧ '.' ∉ extension.toList := by
  obtain ⟨name, hname, hextension⟩ := Option.bind_eq_some_iff.1 h
  have hslash : '/' ∉ name.toList := by
    unfold fileName? at hname
    split at hname
    · next last hlast =>
      obtain rfl := Option.some.inj hname
      exact p.isSpelled_components.no_slash_of_mem (List.mem_of_getLast? hlast)
    · cases hname
  unfold splitName at hextension
  split at hextension
  · cases hextension
  · cases hextension
  · next stem text _ hsplit =>
    obtain rfl := Option.some.inj hextension
    obtain ⟨hchars, hdot⟩ := splitAtLastDot_eq_some_iff.1 hsplit
    rw [String.toList_ofList]
    exact ⟨fun hmem => hslash (by rw [hchars]; simp [hmem]), hdot⟩

/-- A stem with an extension behind it has this extension. -/
theorem extension?_of_fileName? {stem extension : List Char}
    (h : p.fileName? = some (String.ofList (stem ++ '.' :: extension))) (hstem : stem ≠ [])
    (hdot : '.' ∉ extension) : p.extension? = some (String.ofList extension) := by
  have hsplit : splitAtLastDot (stem ++ '.' :: extension) = some (stem, extension) :=
    splitAtLastDot_eq_some_iff.2 ⟨rfl, hdot⟩
  rw [extension?, h, Option.bind_some, splitName, String.toList_ofList, hsplit]
  cases stem with
  | nil => exact absurd rfl hstem
  | cons c cs => rfl

/-- The first half of a name is the whole name exactly if the name has no extension. -/
theorem splitName_fst_eq_iff {name : String} : (splitName name).1 = name ↔ (splitName name).2 = none := by
  unfold splitName
  split
  · simp
  · simp
  · next stem extension _ hsplit =>
    obtain ⟨hname, -⟩ := splitAtLastDot_eq_some_iff.1 hsplit
    have hne : String.ofList stem ≠ name := by
      rintro rfl
      rw [String.toList_ofList] at hname
      simpa using congrArg List.length hname
    simp [hne]

theorem extension?_of_getLast? (h : p.components.getLast? = q.components.getLast?) :
    p.extension? = q.extension? := by
  rw [extension?, extension?, fileName?, fileName?, h]

end Path

namespace FileKind

theorem ofPath_of_getLast? {p q : Path} (h : p.components.getLast? = q.components.getLast?) :
    ofPath p = ofPath q := by
  rw [ofPath, ofPath, Path.extension?_of_getLast? h]

/-- A name with the extension of a manifest names a manifest. -/
theorem ofPath_of_json {p : Path} {name : List Char} (hne : name ≠ [])
    (h : p.fileName? = some (String.ofList (name ++ ".json".toList))) : ofPath p = .manifest := by
  rw [ofPath, Path.extension?_of_fileName? h hne (by decide)]
  decide

end FileKind

end Vendoring

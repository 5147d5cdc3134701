/-
# How rendered paths are read

A specifier is read by its first piece: a text that begins with `.` or `..` and a slash, or is
nothing else, is relative, and any other first piece names a package. The specifier that is
made for a relative path gets `./` in front unless it starts with a dot. So it is read as
relative and leads where the path leads, with one exception: a path that begins with a hidden
name, one that starts with a dot itself, is read as a package of that name.
-/

import Vendoring.Proofs.Path.Relative
import Vendoring.Proofs.Specifier.Subpaths

namespace Vendoring

open Text

namespace Text

variable {p : Char → Bool} {s u : List Char}

/-- Characters outside the class stay in front. -/
theorem dropEndWhile_append (hs : ∀ c ∈ s, p c = false) :
    dropEndWhile p (s ++ u) = s ++ dropEndWhile p u := by
  induction s with
  | nil => rfl
  | cons c s ih =>
    rw [List.cons_append, dropEndWhile_cons (hs c (by simp)),
      ih fun d hd => hs d (List.mem_cons_of_mem c hd), List.cons_append]

/-- Text behind a place where the class ends is not looked at. -/
theorem takeWhile_append_of_head? (hu : ∀ c ∈ u.head?, p c = false) :
    (s ++ u).takeWhile p = s.takeWhile p := by
  have hstop : u.takeWhile p = [] := by
    cases u with
    | nil => rfl
    | cons c u => exact List.takeWhile_cons_of_neg (by simp [hu c rfl])
  rw [List.takeWhile_append, hstop, List.append_nil]
  split
  · next hall => rw [(List.takeWhile_prefix p).eq_of_length hall]
  · rfl

theorem mem_joinWith {sep c : Char} {parts : List (List Char)} (h : c ∈ joinWith sep parts) :
    c = sep ∨ ∃ part ∈ parts, c ∈ part := by
  induction parts with
  | nil => simp [joinWith] at h
  | cons part parts ih =>
    cases parts with
    | nil => exact .inr ⟨part, by simp, h⟩
    | cons next parts =>
      rw [joinWith, List.mem_append, List.mem_cons] at h
      rcases h with h | rfl | h
      · exact .inr ⟨part, by simp, h⟩
      · exact .inl rfl
      · refine (ih h).imp_right fun hinside => ?_
        obtain ⟨other, hother, hc⟩ := hinside
        exact ⟨other, by simp [hother], hc⟩

theorem mem_joinWith_of_mem {sep c : Char} {parts : List (List Char)} {part : List Char}
    (hpart : part ∈ parts) (hc : c ∈ part) : c ∈ joinWith sep parts := by
  induction parts with
  | nil => cases hpart
  | cons first parts ih =>
    cases parts with
    | nil =>
      obtain rfl := List.mem_singleton.1 hpart
      exact hc
    | cons next parts =>
      rw [joinWith, List.mem_append, List.mem_cons]
      rcases List.mem_cons.1 hpart with rfl | hpart
      · exact .inl hc
      · exact .inr (.inr (ih hpart))

end Text

namespace Specifier

variable {raw name : String} {s first rest : List Char} {p : Path}

/-! ## First pieces -/

/-- The text in front of the first slash. -/
def firstPiece (s : List Char) : List Char := s.takeWhile (· ≠ '/')

theorem not_mem_firstPiece (s : List Char) : '/' ∉ firstPiece s := fun hmem => by
  simpa using List.mem_takeWhile_imp hmem

theorem firstPiece_append (hfirst : '/' ∉ first) (hrest : ∀ c ∈ rest.head?, c = '/') :
    firstPiece (first ++ rest) = first := by
  rw [firstPiece, takeWhile_append_of_head? fun c hc => by simp [hrest c hc]]
  exact List.takeWhile_eq_self_iff.2 fun c hc => decide_eq_true fun heq => hfirst (heq ▸ hc)

theorem firstPiece_append_slash (s rest : List Char) :
    firstPiece (s ++ '/' :: rest) = firstPiece s :=
  takeWhile_append_of_head? (by simp)

/-- Slashes at the end of a text are no part of its first piece. -/
theorem firstPiece_dropEndWhile (s : List Char) :
    firstPiece (dropEndWhile (· = '/') s) = firstPiece s := by
  have hsplit : s = dropEndWhile (· = '/') s ++ (s.reverse.takeWhile (· = '/')).reverse := by
    rw [dropEndWhile, ← List.reverse_append, List.takeWhile_append_dropWhile, List.reverse_reverse]
  conv_rhs => rw [hsplit]
  refine (takeWhile_append_of_head? fun c hc => ?_).symm
  have hslash := List.mem_takeWhile_imp (List.mem_reverse.1 (List.mem_of_mem_head? hc))
  simpa using hslash

theorem exists_behind_firstPiece (s : List Char) :
    ∃ rest, s = firstPiece s ++ rest ∧ ∀ c ∈ rest.head?, c = '/' := by
  refine ⟨s.dropWhile (· ≠ '/'), List.takeWhile_append_dropWhile.symm, fun c hc => ?_⟩
  have hhead := List.head?_dropWhile_not (fun c => decide (c ≠ '/')) s
  rw [Option.mem_def.1 hc] at hhead
  simpa using hhead

/-- A text is compared by its own first piece, if that holds no white space and no backslash. -/
theorem firstPiece_clean (hplain : ∀ c ∈ firstPiece raw.toList, isBlank c = false ∧ c ≠ '\\')
    (hne : firstPiece raw.toList ≠ []) : firstPiece (clean raw) = firstPiece raw.toList := by
  obtain ⟨rest, hraw, hrest⟩ := exists_behind_firstPiece raw.toList
  have hslash := not_mem_firstPiece raw.toList
  generalize firstPiece raw.toList = first at hplain hne hraw hslash ⊢
  have hfront : raw.toList.dropWhile isBlank = raw.toList := by
    obtain ⟨c, cs, rfl⟩ := List.exists_cons_of_ne_nil hne
    rw [hraw, List.cons_append]
    exact List.dropWhile_cons_of_neg (by simp [(hplain c (by simp)).1])
  have hkept : (first.map fun c => if c = '\\' then '/' else c) = first := by
    conv_rhs => rw [← List.map_id first]
    exact List.map_congr_left fun c hc => if_neg (hplain c hc).2
  rw [clean, trim, hfront, String.toList_ofList, hraw,
    dropEndWhile_append fun c hc => (hplain c hc).1, List.map_append, hkept]
  refine firstPiece_append hslash fun c hc => ?_
  cases rest with
  | nil => simp [dropEndWhile] at hc
  | cons d rest =>
    obtain rfl : d = '/' := hrest d rfl
    rw [dropEndWhile_cons (by decide)] at hc
    simpa using hc.symm

/-! ## Reading by the first piece -/

theorem isStep_iff : isStep s = true ↔ firstPiece s = ['.'] ∨ firstPiece s = ['.', '.'] := by
  constructor
  · intro h
    simp only [isStep, Bool.or_eq_true, decide_eq_true_eq, List.isPrefixOf_iff_prefix] at h
    obtain ((rfl | rfl) | ⟨rest, rfl⟩) | ⟨rest, rfl⟩ := h
    · exact .inl rfl
    · exact .inr rfl
    · exact .inl rfl
    · exact .inr rfl
  · intro h
    rw [firstPiece, ← cutAtSlash_fst] at h
    exact isStep_of_cutAtSlash Prod.mk.eta.symm h

/-- A text that is a step is read as relative. -/
theorem parse_of_isStep (h : isStep (clean raw) = true) :
    parse raw = .relative (String.ofList (clean raw)) := by
  have hne : clean raw ≠ [] := by
    rintro hnil
    rw [hnil] at h
    cases h
  have hhead : (clean raw).head? ≠ some '/' := by
    intro hhead
    obtain ⟨rest, hrest⟩ : ∃ rest, clean raw = '/' :: rest := by
      cases hs : clean raw with
      | nil => simp [hs] at hhead
      | cons c rest => exact ⟨rest, by simpa [hs] using hhead⟩
    rw [hrest, isStep_iff] at h
    simp [firstPiece] at h
  simp only [parse, if_neg hne, if_neg hhead, if_pos h]

/-- A text with any other first piece names the package that is called like the piece. -/
theorem packageName?_of_firstPiece (hne : firstPiece (clean raw) ≠ [])
    (hstep : isStep (clean raw) = false) (hscope : (firstPiece (clean raw)).head? ≠ some '@') :
    (parse raw).packageName? = some (String.ofList (firstPiece (clean raw))) := by
  obtain ⟨c, cs, hfirst⟩ := List.exists_cons_of_ne_nil hne
  obtain ⟨rest, hclean, -⟩ := exists_behind_firstPiece (clean raw)
  have hslash := not_mem_firstPiece (clean raw)
  have hc : c ≠ '/' := by
    rintro rfl
    simp [hfirst] at hslash
  have hempty : clean raw ≠ [] := by
    rw [hclean, hfirst]
    simp
  have hhead : (clean raw).head? ≠ some '/' := by
    rw [hclean, hfirst, List.cons_append, List.head?_cons, Ne, Option.some.injEq]
    exact hc
  have hcut : (cutAtSlash (clean raw)).1 = firstPiece (clean raw) := cutAtSlash_fst _
  simp only [parse, if_neg hempty, if_neg hhead, hstep, ofPackageText, hcut, if_neg hscope,
    Bool.false_eq_true, if_false, packageName?]

end Specifier

namespace Path

open Specifier

variable {p : Path} {name : String} {first : List Char} {rest : List (List Char)} {ch : Char}

/-! ## Specifiers of paths -/

/-- The name that a path begins with, if it is hidden: if it starts with a dot. -/
def hiddenLead? (p : Path) : Option String :=
  match p.components.head? with
  | some (.name s) => if s.toList.head? = some '.' then some s else none
  | _ => none

theorem hiddenLead?_eq_some (h : p.hiddenLead? = some name) :
    name.toList.head? = some '.' ∧ ∃ cs, p.components = .name name :: cs := by
  unfold hiddenLead? at h
  split at h
  · next s hhead =>
    split at h
    · next hdot =>
      obtain rfl := Option.some.inj h
      cases hcs : p.components with
      | nil => simp [hcs] at hhead
      | cons c cs =>
        rw [hcs, List.head?_cons, Option.some.injEq] at hhead
        exact ⟨hdot, cs, by rw [hhead]⟩
    · cases h
  · cases h

theorem firstPiece_of_segments (h : p.segments = first :: rest) :
    firstPiece p.text.toList = first := by
  have htext : p.text.toList = joinWith '/' (first :: rest) := by
    rw [← h, segments, joinWith_splitOn]
  have hslash : '/' ∉ first := not_slash_of_mem_segments (p := p) (by simp [h])
  rw [htext]
  cases rest with
  | nil => simpa [joinWith] using @firstPiece_append first [] hslash (by simp)
  | cons next rest => exact firstPiece_append hslash (by simp)

/-- The plain spelling of a path begins with its first component. -/
theorem firstPiece_slashed {c : Component} {cs : List Component} (h : p.components = c :: cs)
    (hroot : c ≠ .root) : firstPiece p.slashed.toList = c.text.toList := by
  have hspelled : IsSpelled (c :: cs) := h ▸ p.isSpelled_components
  rw [slashed, h]
  exact firstPiece_of_segments (segments_ofComponents hspelled fun heq =>
    hroot (ofComponents_eq_root hspelled heq).1)

/-- The plain spelling of a path begins like its first component. -/
theorem head?_slashed {c : Component} {cs : List Component} (h : p.components = c :: cs)
    (hroot : c ≠ .root) (hne : c.text.toList ≠ []) :
    p.slashed.toList.head? = c.text.toList.head? := by
  obtain ⟨rest, hslashed, -⟩ := exists_behind_firstPiece p.slashed.toList
  rw [hslashed, firstPiece_slashed h hroot]
  exact List.head?_append_of_ne_nil _ hne

/-- A hidden name that a path begins with is what its specifier begins with. -/
theorem firstPiece_of_hiddenLead? (h : p.hiddenLead? = some name) :
    firstPiece p.relativeSpecifier.toList = name.toList := by
  obtain ⟨hdot, cs, hcs⟩ := hiddenLead?_eq_some h
  have hne : name.toList ≠ [] := fun hnil => by simp [hnil] at hdot
  have hstep : (Component.name name).IsStep := isStep_of_name_mem (p := p) (by simp [hcs])
  have hfirst := firstPiece_slashed hcs (by simp)
  have hslashed : p.slashed ≠ "." := fun heq => by
    rw [heq] at hfirst
    have hpad := hstep.not_padding
    rw [← hfirst] at hpad
    cases hpad
  have hhead := head?_slashed hcs (by simp) hne
  rw [relativeSpecifier]
  simp only [if_neg hslashed, hhead]
  rw [show (Component.name name).text = name from rfl, if_pos hdot]
  exact hfirst

/-- The specifier of any other relative path begins with a step. -/
theorem firstPiece_of_hiddenLead?_eq_none (hrelative : p.isAbsolute = false)
    (h : p.hiddenLead? = none) : firstPiece p.relativeSpecifier.toList = ['.'] ∨
      firstPiece p.relativeSpecifier.toList = ['.', '.'] := by
  have hhere (s : String) : firstPiece ("./" ++ s).toList = ['.'] := by
    rw [String.toList_append]
    exact @firstPiece_append ['.'] ('/' :: s.toList) (by decide) (by simp)
  rw [relativeSpecifier]
  split
  · exact .inl rfl
  · split
    · next hdot =>
      -- only a step can begin with a dot here
      cases hcs : p.components with
      | nil =>
        rw [slashed, hcs] at hdot
        cases hdot
      | cons c cs =>
        have hlead := p.isSpelled_components
        rw [hcs] at hlead
        cases c with
        | root =>
          rw [Bool.eq_false_iff, Ne, isAbsolute_iff_head, hcs] at hrelative
          exact absurd rfl hrelative
        | here => exact .inl (firstPiece_slashed hcs (by simp))
        | up => exact .inr (firstPiece_slashed hcs (by simp))
        | name s =>
          have hstep : (Component.name s).IsStep := isStep_of_name_mem (p := p) (by simp [hcs])
          have hne : s.toList ≠ [] := fun hnil => by
            have hpad := hstep.not_padding
            rw [show (Component.name s).text = s from rfl, hnil] at hpad
            cases hpad
          rw [head?_slashed hcs (by simp) hne] at hdot
          have hhidden : p.hiddenLead? = some s := by
            simp only [hiddenLead?, hcs, List.head?_cons]
            exact if_pos hdot
          rw [hhidden] at h
          cases h
    · exact .inl (hhere _)

theorem firstPiece_relativeSpecifier_ne_nil (hrelative : p.isAbsolute = false) :
    firstPiece p.relativeSpecifier.toList ≠ [] := by
  cases h : p.hiddenLead? with
  | none => rcases firstPiece_of_hiddenLead?_eq_none hrelative h with heq | heq <;> simp [heq]
  | some name =>
    obtain ⟨hdot, -⟩ := hiddenLead?_eq_some h
    rw [firstPiece_of_hiddenLead? h]
    exact fun hnil => by simp [hnil] at hdot

/-- What the components of a path are written with stands in its text. -/
theorem mem_text_of_mem_component {c : Component} (hc : c ∈ p.components) (hch : ch ∈ c.text.toList) :
    ch ∈ p.text.toList := by
  have hpiece {s : List Char} (hs : s ∈ p.segments) (hmem : ch ∈ s) : ch ∈ p.text.toList := by
    rw [← joinWith_splitOn '/' p.text.toList]
    exact mem_joinWith_of_mem hs hmem
  obtain ⟨first, rest, hsegs⟩ := p.exists_segments
  have htext : p.text ≠ "" := components_ne_nil_iff.1 (List.ne_nil_of_mem hc)
  rw [components_of_text_ne hsegs htext] at hc
  rcases List.mem_cons.1 hc with rfl | hc
  · refine hpiece (s := first) (by simp [hsegs]) ?_
    unfold leadOf at hch
    split at hch
    · simp [Component.text] at hch
    · simpa using hch
  · obtain ⟨s, hs, rfl⟩ := List.mem_map.1 hc
    exact hpiece (s := s) (by simp [hsegs, List.mem_of_mem_filter hs]) (by simpa using hch)

/-- A specifier is written with the characters of the path, dots and slashes. -/
theorem mem_relativeSpecifier (h : ch ∈ p.relativeSpecifier.toList) :
    ch = '.' ∨ ch = '/' ∨ ∃ c ∈ p.components, ch ∈ c.text.toList := by
  have hslashed (h : ch ∈ p.slashed.toList) : ch = '/' ∨ ∃ c ∈ p.components, ch ∈ c.text.toList := by
    unfold slashed at h
    cases hcs : p.components with
    | nil =>
      rw [hcs] at h
      cases h
    | cons c cs =>
      rw [hcs, ofComponents, ofSegments] at h
      split at h
      · exact .inl (List.mem_singleton.1 h)
      · rw [String.toList_ofList] at h
        refine (mem_joinWith h).imp_right fun hinside => ?_
        obtain ⟨part, hpart, hmem⟩ := hinside
        rcases List.mem_cons.1 hpart with rfl | hpart
        · exact ⟨c, by simp, hmem⟩
        · obtain ⟨d, hd, rfl⟩ := List.mem_map.1 hpart
          exact ⟨d, by simp [hd], hmem⟩
  have hhere (h : ch ∈ "./".toList) : ch = '.' ∨ ch = '/' := by simpa using h
  rw [relativeSpecifier] at h
  split at h
  · exact (hhere h).imp_right .inl
  · split at h
    · exact .inr (hslashed h)
    · rw [String.toList_append, List.mem_append] at h
      rcases h with h | h
      · exact (hhere h).imp_right .inl
      · exact .inr (hslashed h)

/-- No component of the path holds white space or a backslash. -/
def IsPlainText (p : Path) : Prop :=
  ∀ c ∈ p.components, ∀ ch ∈ c.text.toList, isBlank ch = false ∧ ch ≠ '\\'

theorem IsPlainText.relativeSpecifier (h : p.IsPlainText) (hch : ch ∈ p.relativeSpecifier.toList) :
    isBlank ch = false ∧ ch ≠ '\\' := by
  rcases mem_relativeSpecifier hch with rfl | rfl | ⟨c, hc, hch⟩
  · decide
  · decide
  · exact h c hc ch hch

/-! ## Reading the specifier of a path -/

variable {raw : String}

section Reading

variable (hrelative : p.isAbsolute = false) (hplain : p.IsPlainText)
  (hraw : firstPiece raw.toList = firstPiece p.relativeSpecifier.toList)

include hplain hraw

theorem firstPiece_clean_eq (hne : firstPiece p.relativeSpecifier.toList ≠ []) :
    firstPiece (clean raw) = firstPiece p.relativeSpecifier.toList := by
  rw [← hraw] at hne ⊢
  refine firstPiece_clean (fun ch hch => ?_) hne
  rw [hraw] at hch
  exact hplain.relativeSpecifier ((List.takeWhile_sublist _).mem hch)

/-- What begins like the specifier of a path names a package if the path begins with a hidden
name, and then it names the package that is called so. -/
theorem packageName?_of_hiddenLead? (h : p.hiddenLead? = some name) :
    (parse raw).packageName? = some name := by
  obtain ⟨hdot, cs, hcs⟩ := hiddenLead?_eq_some h
  have hstep : (Component.name name).IsStep := isStep_of_name_mem (p := p) (by simp [hcs])
  have hfirst := firstPiece_of_hiddenLead? h
  have hne : name.toList ≠ [] := fun hnil => by simp [hnil] at hdot
  have hclean := (firstPiece_clean_eq hplain hraw (hfirst ▸ hne)).trans hfirst
  have hnotStep : isStep (clean raw) = false := by
    rw [Bool.eq_false_iff, Ne, isStep_iff, hclean]
    have hread := hstep.read_back
    rintro (heq | heq)
    · rw [show (Component.name name).text = name from rfl, heq] at hread
      cases hread
    · rw [show (Component.name name).text = name from rfl, heq] at hread
      cases hread
  rw [packageName?_of_firstPiece (hclean ▸ hne) hnotStep (by rw [hclean, hdot]; decide), hclean,
    String.ofList_toList]

include hrelative

/-- What begins like the specifier of any other relative path is relative. -/
theorem parse_of_hiddenLead?_eq_none (h : p.hiddenLead? = none) :
    parse raw = .relative (String.ofList (clean raw)) := by
  apply parse_of_isStep
  rw [isStep_iff,
    firstPiece_clean_eq hplain hraw (firstPiece_relativeSpecifier_ne_nil hrelative)]
  exact firstPiece_of_hiddenLead?_eq_none hrelative h

end Reading

/-- The specifier of a relative path is read as relative and leads where the path leads, exactly
if the path does not begin with a hidden name. -/
theorem exists_parse_relativeSpecifier_iff (hrelative : p.isAbsolute = false)
    (hplain : p.IsPlainText) :
    (∃ s, parse p.relativeSpecifier = .relative s ∧ (⟨s⟩ : Path).normalize = p.normalize) ↔
      p.hiddenLead? = none := by
  constructor
  · rintro ⟨s, hparse, -⟩
    cases h : p.hiddenLead? with
    | none => rfl
    | some name =>
      have hname := packageName?_of_hiddenLead? hplain rfl h
      rw [hparse] at hname
      cases hname
  · intro h
    have hparse := parse_of_hiddenLead?_eq_none hrelative hplain rfl h
    rw [clean_eq_self fun ch => hplain.relativeSpecifier, String.ofList_toList] at hparse
    refine ⟨_, hparse, ?_⟩
    obtain ⟨hrelative', hsteps⟩ := stepsOf_relativeSpecifier hrelative
    apply normalize_congr
    rw [collapse, foldl_advance_components hrelative', hsteps, ← foldl_advance_components hrelative]
    rfl

/-- A path into a hidden directory is taken for a package of that name. -/
theorem exists_parse_relativeSpecifier_ne : (⟨".npm/p"⟩ : Path).relativeSpecifier = ".npm/p" ∧
    parse ".npm/p" = .plain ".npm" (some "p") := by
  decide

end Path

end Vendoring

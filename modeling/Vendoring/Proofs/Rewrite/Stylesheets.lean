/-
# Rewriting stylesheets again

What a table of packages points specifiers at are paths, and the way from a directory to a
path is written with the characters of the path, dots and slashes. If the paths of the table
need no quotes, neither do the specifiers made of them, and a rewritten stylesheet is scanned
to the rewritten specifiers, in their order.

Without a resolver a rewritten specifier is kept when the stylesheet is rewritten again, for it
is read as relative. There is one exception: a way that begins with a hidden name is read as
the package of that name, and if the table knows one, the specifier is pointed at it.
-/

import Vendoring.Proofs.Rewrite.Splice
import Vendoring.Proofs.Scan.Stylesheets
import Vendoring.Proofs.Specifier.Rendered

namespace Vendoring

open Scan

/-! ## Pieces of a stylesheet -/

/-- Exchanging the specifiers of the pieces exchanges them in the text. -/
theorem spliced_matchesIn (new : String → Option String) (offset : Nat) (pieces : List Piece) :
    Spliced new offset (matchesIn offset pieces) (textOf pieces)
      (textOf (pieces.map (Piece.exchange new))) := by
  induction pieces generalizing offset with
  | nil => exact .rest offset []
  | cons piece pieces ih =>
    cases piece with
    | passed c => exact Spliced.behind_gap (ih (offset + c.utf8Size))
    | imported lead spec quote =>
      have hmatch : Occurrence.toMatch offset ⟨lead, spec.toList⟩ =
          ⟨offset + byteLength lead, offset + byteLength lead + byteLength spec.toList, spec⟩ := by
        simp [Occurrence.toMatch]
      have hbehind : Spliced new (offset + byteLength lead + byteLength spec.toList)
          (matchesIn (offset + byteLength (Piece.imported lead spec quote).text) pieces)
          (quote.toList ++ textOf pieces)
          (quote.toList ++ textOf (pieces.map (Piece.exchange new))) := by
        refine Spliced.behind_gap ?_
        rw [Piece.text, byteLength_append, byteLength_append, ← Nat.add_assoc, ← Nat.add_assoc]
        exact ih _
      rw [matchesIn, hmatch, textOf_cons, List.map_cons, textOf_cons, Piece.exchange, Piece.text,
        Piece.text, List.append_assoc _ quote.toList, List.append_assoc _ quote.toList]
      exact .specifier rfl rfl hbehind

/-- The pieces of a stylesheet are rewritten one by one. -/
theorem Rewriter.rewrite_textOf {w : Rewriter} {content : String} (source dir : Path)
    {pieces : List Piece} (hcut : IsCut pieces) (hcontent : content.toList = textOf pieces) :
    (w.rewrite content .stylesheet source dir).toList = textOf (pieces.map
      (Piece.exchange fun specifier => w.rewriteSpecifier? specifier .stylesheet source dir)) := by
  have hscan : scan .stylesheet content = matchesIn 0 pieces := by
    rw [scan, hcontent]
    exact scanStylesheet_textOf hcut
  obtain ⟨-, -, hspliced⟩ := w.rewrite_splices content (.inr rfl) source dir
  rw [hscan, hcontent] at hspliced
  exact hspliced.unique (spliced_matchesIn _ 0 pieces)

/-! ## Paths of a table -/

namespace PackageTable

/-- The table points specifiers at the path: at the directory of a package, or at what the name
of one stands for. -/
def IsGoal (t : PackageTable) (goal : Path) : Prop :=
  ∃ name e, t.get? name = some e ∧ (goal = e.outputRoot ∨ e.mainEntry = some goal)

/-- What the table points at are relative paths that are written without quotes. -/
structure IsBare (t : PackageTable) : Prop where
  relative : ∀ goal, t.IsGoal goal → goal.isAbsolute = false
  bare : ∀ goal, t.IsGoal goal → ∀ c ∈ goal.text.toList, isBareChar c = true ∧ c ≠ '\\'

/-- No way from the directory to a path of the table begins with a hidden name that the table
knows as a package. -/
def HidesNone (t : PackageTable) (dir : Path) : Prop :=
  ∀ goal, t.IsGoal goal → ∀ name ∈ (dir.relativePath goal).hiddenLead?, t.get? name = none

variable {t : PackageTable} {dir goal : Path} {c : Char}

/-- The way to a path of the table needs no quotes. -/
theorem IsBare.relativePath (h : t.IsBare) (hgoal : t.IsGoal goal) (dir : Path) :
    ∀ d ∈ (dir.relativePath goal).components, ∀ c ∈ d.text.toList,
      isBareChar c = true ∧ c ≠ '\\' := by
  intro d hd c hc
  have habsolute : goal.isAbsolute = true → dir.isAbsolute = true := by
    simp [h.relative goal hgoal]
  rcases Path.mem_components_relativePath habsolute hd with rfl | rfl | hd
  · obtain rfl : c = '.' := by simpa [Component.text] using hc
    decide
  · obtain rfl : c = '.' := by simpa [Component.text] using hc
    decide
  · exact h.bare goal hgoal c (Path.mem_text_of_mem_component hd hc)

theorem IsBare.isAbsolute_relativePath (h : t.IsBare) (hgoal : t.IsGoal goal) (dir : Path) :
    (dir.relativePath goal).isAbsolute = false :=
  (Path.stepsOf_relativePath (by simp [h.relative goal hgoal])).1

theorem IsBare.isPlainText (h : t.IsBare) (hgoal : t.IsGoal goal) (dir : Path) :
    (dir.relativePath goal).IsPlainText := fun d hd c hc =>
  (h.relativePath hgoal dir d hd c hc).imp_left not_isBlank_of_isBareChar

theorem IsBare.relativeSpecifier (h : t.IsBare) (hgoal : t.IsGoal goal) (dir : Path)
    (hc : c ∈ (dir.relativePath goal).relativeSpecifier.toList) : isBareChar c = true := by
  rcases Path.mem_relativeSpecifier hc with rfl | rfl | ⟨d, hd, hc⟩
  · decide
  · decide
  · exact (h.relativePath hgoal dir d hd c hc).1

end PackageTable

namespace Rewriter

variable {w : Rewriter} {source dir : Path} {content specifier : String} {kind : FileKind}

/-! ## Specifiers that are made of the table -/

section Specifiers

variable {e : PackageEntry} {name : String} {subpath : Option String} {c : Char}

theorem mem_of_mem_stripAlternate {sub : String} {alternate : Option String}
    (hc : c ∈ (stripAlternate sub alternate).toList) : c ∈ sub.toList := by
  unfold stripAlternate at hc
  split at hc
  · exact hc
  · exact hc
  · next rest _ hrest =>
    obtain ⟨dirname, -, hbehind⟩ := Option.bind_eq_some_iff.1 hrest
    rw [behind?_eq_some hbehind]
    rw [String.toList_ofList] at hc
    exact List.mem_append_right _ hc

/-- What a specifier into a package begins with and what it is made of. -/
theorem exists_goal_specifierInto (t : PackageTable) (hentry : t.get? name = some e) (dir : Path)
    (subpath : Option String) : ∃ goal, t.IsGoal goal ∧
      Specifier.firstPiece (specifierInto dir e subpath).toList =
        Specifier.firstPiece (dir.relativePath goal).relativeSpecifier.toList ∧
      ∀ c ∈ (specifierInto dir e subpath).toList,
        c ∈ (dir.relativePath goal).relativeSpecifier.toList ∨ c = '/' ∨
          ∃ sub ∈ subpath, c ∈ sub.toList := by
  cases subpath with
  | none =>
    refine ⟨e.mainEntry.getD e.outputRoot, ⟨name, e, hentry, ?_⟩, rfl, fun c hc => .inl hc⟩
    cases hmain : e.mainEntry with
    | none => exact .inl rfl
    | some main => exact .inr rfl
  | some sub =>
    refine ⟨e.outputRoot, ⟨name, e, hentry, .inl rfl⟩, ?_, fun c hc => ?_⟩
    · simp only [specifierInto, String.toList_append, String.toList_ofList, List.append_assoc]
      exact (Specifier.firstPiece_append_slash _ _).trans (Specifier.firstPiece_dropEndWhile _)
    · simp only [specifierInto, String.toList_append, String.toList_ofList, List.mem_append] at hc
      rcases hc with (hc | hc) | hc
      · exact .inl ((Text.isPrefix_dropEndWhile _ _).subset hc)
      · exact .inr (.inl (List.mem_singleton.1 hc))
      · exact .inr (.inr ⟨sub, rfl, mem_of_mem_stripAlternate hc⟩)

/-- Without a resolver a specifier is rewritten by the package that it names. -/
theorem rewriteSpecifier?_of_no_resolver (hresolver : w.resolver = none) :
    w.rewriteSpecifier? specifier kind source dir =
      (Specifier.parse specifier).packageName?.bind fun name =>
        (w.table.get? name).map fun e =>
          specifierInto dir e (Specifier.parse specifier).subpath? := by
  simp only [rewriteSpecifier?, locate?, hresolver, Option.bind_none]
  cases Specifier.parse specifier <;> rfl

end Specifiers

/-! ## Rewriting again -/

section Again

variable (hresolver : w.resolver = none) (hbare : w.table.IsBare)

include hresolver

theorem exists_of_rewriteSpecifier? {new : String}
    (h : w.rewriteSpecifier? specifier kind source dir = some new) :
    ∃ name e, (Specifier.parse specifier).packageName? = some name ∧ w.table.get? name = some e ∧
      specifierInto dir e (Specifier.parse specifier).subpath? = new := by
  rw [rewriteSpecifier?_of_no_resolver hresolver] at h
  obtain ⟨name, hname, h⟩ := Option.bind_eq_some_iff.1 h
  obtain ⟨e, hentry, hnew⟩ := Option.map_eq_some_iff.1 h
  exact ⟨name, e, hname, hentry, hnew⟩

include hbare

/-- What a specifier is rewritten to needs no quotes that the specifier has not needed. -/
theorem standsIn_rewriteSpecifier? (specifier : String) (kind : FileKind) (source dir : Path) :
    StandsIn specifier.toList
      ((w.rewriteSpecifier? specifier kind source dir).getD specifier).toList := by
  cases hnew : w.rewriteSpecifier? specifier kind source dir with
  | none => exact .refl _
  | some new =>
    rw [Option.getD_some]
    obtain ⟨name, e, hname, hentry, rfl⟩ := exists_of_rewriteSpecifier? hresolver hnew
    obtain ⟨goal, hgoal, hfirst, hmem⟩ := exists_goal_specifierInto w.table hentry dir
      (Specifier.parse specifier).subpath?
    have hslash : isBareChar '/' = true := by decide
    refine ⟨fun c hc => ?_, fun _ hnil => ?_⟩
    · rcases hmem c hc with hc | hc | ⟨sub, hsub, hc⟩
      · exact .inl (hbare.relativeSpecifier hgoal dir hc)
      · exact .inl (hc ▸ hslash)
      · refine (Specifier.mem_of_mem_subpath? hname hsub hc).imp_left ?_
        rintro rfl
        exact hslash
    · rw [hnil] at hfirst
      exact Path.firstPiece_relativeSpecifier_ne_nil (hbare.isAbsolute_relativePath hgoal dir)
        hfirst.symm

/-- A specifier that was rewritten is kept, unless it begins with a hidden name. -/
theorem rewriteSpecifier?_again (hhidden : w.table.HidesNone dir) {new : String}
    (h : w.rewriteSpecifier? specifier kind source dir = some new) :
    w.rewriteSpecifier? new kind source dir = none := by
  obtain ⟨name, e, hname, hentry, rfl⟩ := exists_of_rewriteSpecifier? hresolver h
  obtain ⟨goal, hgoal, hfirst, -⟩ := exists_goal_specifierInto w.table hentry dir
    (Specifier.parse specifier).subpath?
  have hplain := hbare.isPlainText hgoal dir
  rw [rewriteSpecifier?_of_no_resolver hresolver]
  cases hlead : (dir.relativePath goal).hiddenLead? with
  | none =>
    rw [Path.parse_of_hiddenLead?_eq_none (hbare.isAbsolute_relativePath hgoal dir) hplain hfirst
      hlead]
    rfl
  | some hidden =>
    rw [Path.packageName?_of_hiddenLead? hplain hfirst hlead, Option.bind_some,
      hhidden goal hgoal hidden hlead]
    rfl

/-- A rewritten stylesheet is scanned to the specifiers of the stylesheet, in their order, with
each one rewritten. -/
theorem scan_rewrite_stylesheet (content : String) (source dir : Path) :
    (scan .stylesheet (w.rewrite content .stylesheet source dir)).map (·.specifier) =
      (scan .stylesheet content).map fun m =>
        (w.rewriteSpecifier? m.specifier .stylesheet source dir).getD m.specifier := by
  obtain ⟨pieces, hcut, hcontent⟩ := exists_isCut content.toList
  have hcut' := hcut.exchange fun specifier =>
    standsIn_rewriteSpecifier? hresolver hbare specifier .stylesheet source dir
  rw [scan, rewrite_textOf source dir hcut hcontent.symm, scanStylesheet_textOf hcut',
    map_specifier_matchesIn, filterMap_specifier?_exchange, scan, ← hcontent,
    scanStylesheet_textOf hcut, ← map_specifier_matchesIn 0, List.map_map]
  rfl

/-- Rewriting a rewritten stylesheet changes nothing, if no specifier of a package begins with
a hidden name that is a package. -/
theorem rewrite_rewrite_stylesheet (hhidden : w.table.HidesNone dir) (content : String)
    (source : Path) : w.rewrite (w.rewrite content .stylesheet source dir) .stylesheet source dir =
      w.rewrite content .stylesheet source dir := by
  obtain ⟨pieces, hcut, hcontent⟩ := exists_isCut content.toList
  have hcut' := hcut.exchange fun specifier =>
    standsIn_rewriteSpecifier? hresolver hbare specifier .stylesheet source dir
  have hrewritten := @rewrite_textOf w content source dir pieces hcut hcontent.symm
  rw [← String.toList_inj, rewrite_textOf source dir hcut' hrewritten, hrewritten, List.map_map]
  refine congrArg textOf (List.map_congr_left fun piece _ => ?_)
  exact piece.exchange_exchange fun _ _ => rewriteSpecifier?_again hresolver hbare hhidden

end Again

/-! ## Hidden names that are packages -/

/-- A table with a package in a hidden directory, and a package that is called like this
directory. -/
def hiddenTable : PackageTable :=
  (PackageTable.insert {} { name := "q", outputRoot := ⟨"npm/.p"⟩ }).insert
    { name := ".p", outputRoot := ⟨"npm/o"⟩ }

/-- The way into the hidden directory is taken for the other package when a stylesheet is
rewritten again. -/
theorem rewrite_rewrite_ne :
    rewrite ⟨hiddenTable, none⟩ "@import 'q/x';" .stylesheet ⟨"src/a.wxss"⟩ ⟨"npm"⟩ =
        "@import '.p/x';" ∧
      rewrite ⟨hiddenTable, none⟩ "@import '.p/x';" .stylesheet ⟨"src/a.wxss"⟩ ⟨"npm"⟩ =
        "@import './o/x';" := by
  decide +kernel

end Rewriter

end Vendoring

/-
# Where rewritten specifiers lead

A specifier that leads to an output of the build is replaced by the path from the file's
directory to that output, or it is kept because it leads there already. Either way it leads
to the output, to the output without its extension, or to the directory that has the output
as its index, whatever the kinds and places of the two files are.

An output is found again without its extension only if what is left of its name is a name:
a file that is called `...js` is turned into a step up.
-/

import Vendoring.Proofs.Path.Relative
import Vendoring.Rewrite.Basic

namespace Vendoring.Rewriter

variable {w : Rewriter} {dir source output : Path} {specifier : String} {kind : FileKind}

/-- From a file of the directory, the specifier leads to the output: to the file itself, to
the file up to its extension, or to the directory with the file as its index. -/
def Reaches (dir : Path) (specifier : String) (output : Path) : Prop :=
  (dir / specifier).normalize.SameAs output ∨
    (dir / specifier).normalize.SameAs output.withoutExtension ∨
    output.stem? = some canonicalStem ∧
      ∃ parent ∈ output.parent?, (dir / specifier).normalize.SameAs parent

instance (dir : Path) (specifier : String) (output : Path) :
    Decidable (Reaches dir specifier output) :=
  inferInstanceAs (Decidable (_ ∨ _ ∨ _ ∧ ∃ parent ∈ output.parent?, _))

/-- What points at an output leads there. -/
theorem reaches_of_pointsAt (h : pointsAt dir specifier output = true) :
    Reaches dir specifier output := by
  simp only [pointsAt, Bool.and_eq_true, Bool.or_eq_true, decide_eq_true_eq] at h
  rcases h.2 with (houtput | hwithout) | ⟨hstem, hparent⟩
  · exact .inl houtput
  · exact .inr (.inl hwithout)
  · obtain ⟨parent, hmem, hsame⟩ := (Option.any_eq_true _ _).1 hparent
    exact .inr (.inr ⟨hstem, parent, hmem, Eq.symm (of_decide_eq_true hsame)⟩)

/-- The specifier that is made for an output leads there. -/
theorem reaches_specifierFor (hdir : dir.isAbsolute = false) (hup : .up ∉ dir.components)
    (hrelative : output.isAbsolute = false) (hnormal : output.normalize.SameAs output)
    (hdot : output.stem? ≠ some ".") (hdots : output.stem? ≠ some "..") :
    Reaches dir (specifierFor dir output specifier kind) output := by
  obtain ⟨hrelative', hnormal'⟩ := Path.normalize_withoutExtension hrelative hnormal hdot hdots
  simp only [specifierFor]
  split
  · refine .inr (.inl ?_)
    rw [Path.normalize_join_relativePath hdir hup hrelative']
    exact hnormal'
  · refine .inl ?_
    rw [Path.normalize_join_relativePath hdir hup hrelative]
    exact hnormal

/-- A specifier that leads to an output still leads there once the file is rewritten. -/
theorem reaches_rewriteSpecifier? (hdir : dir.isAbsolute = false) (hup : .up ∉ dir.components)
    (hlocate : w.locate? specifier kind source = some output)
    (hrelative : output.isAbsolute = false) (hnormal : output.normalize.SameAs output)
    (hdot : output.stem? ≠ some ".") (hdots : output.stem? ≠ some "..") :
    Reaches dir ((w.rewriteSpecifier? specifier kind source dir).getD specifier) output := by
  simp only [rewriteSpecifier?, hlocate]
  split
  · next hpoints =>
    rw [Option.getD_none]
    exact reaches_of_pointsAt hpoints
  · rw [Option.getD_some]
    exact reaches_specifierFor hdir hup hrelative hnormal hdot hdots

/-! ## Names that are no names without their extension -/

/-- A specifier `..` that led to a main file `...js` in the directory around leads out of that
directory. It looks as if it had left the extension out. -/
theorem exists_not_reaches :
    pointsAt ⟨"p/lib"⟩ ".." ⟨"p/...js"⟩ = false ∧
      ¬Reaches ⟨"p/lib"⟩ (specifierFor ⟨"p/lib"⟩ ⟨"p/...js"⟩ ".." .script) ⟨"p/...js"⟩ := by
  decide +kernel

end Vendoring.Rewriter

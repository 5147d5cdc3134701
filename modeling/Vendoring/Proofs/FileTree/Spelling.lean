/-
# Reading a file under another spelling

A path that leads anywhere still leads there without its padding, since every
step of a look-up is taken in a directory and padding stays in that directory.
The plain spelling is never the longer one, so no limit on the length of paths
is in the way. In the other direction padding can do harm: a file cannot be read
with a slash behind its name, and a padded path may be too long.
-/

import Vendoring.Proofs.FileTree.Lookup
import Vendoring.Proofs.Path.Keys

namespace Vendoring

namespace Text

variable {sep : Char}

/-- Leaving out parts behind the first only takes characters away. -/
theorem joinWith_filter_sublist (keep : List Char → Bool) (first : List Char)
    (rest : List (List Char)) :
    (joinWith sep (first :: rest.filter keep)).Sublist (joinWith sep (first :: rest)) := by
  induction rest generalizing first with
  | nil => exact .refl _
  | cons part rest ih =>
    have hdrop : (joinWith sep (first :: rest)).Sublist (joinWith sep (first :: part :: rest)) := by
      cases rest with
      | nil => simp [joinWith]
      | cons next rest =>
        simp only [joinWith]
        refine .append_left (.cons_cons sep ?_) first
        exact (List.sublist_cons_self sep _).trans (List.sublist_append_right part _)
    rw [List.filter_cons]
    split
    · simp only [joinWith]
      exact .append_left (.cons_cons sep (ih part)) first
    · exact (ih first).trans hdrop

theorem utf8ByteSize_le_of_sublist {s u : List Char} (h : s.Sublist u) :
    (String.ofList s).utf8ByteSize ≤ (String.ofList u).utf8ByteSize := by
  have hcons (c : Char) (l : List Char) : (String.ofList (c :: l)).utf8ByteSize =
      (String.ofList [c]).utf8ByteSize + (String.ofList l).utf8ByteSize := by
    rw [← String.utf8ByteSize_append, ← String.ofList_append, List.singleton_append]
  induction h with
  | slnil => exact le_rfl
  | cons c _ ih =>
    rw [hcons]
    omega
  | @cons_cons s u c _ ih =>
    rw [hcons c s, hcons c u]
    omega

end Text

namespace Path

variable {p q : Path}

/-- The pieces of a plain path other than the root are those of any spelling of
it, without the padding. -/
theorem SameAs.segments_of_isPlain (h : p.SameAs q) (hq : q.IsPlain) (hroot : q ≠ ⟨"/"⟩)
    {first : List Char} {rest : List (List Char)} (hsegs : p.segments = first :: rest)
    (hne : p.text ≠ "") : q.segments = first :: rest.filter fun s => !isPadding s := by
  have hcs := components_of_text_ne hsegs hne
  have hspelled : IsSpelled (leadOf first :: stepsOf rest) := by
    rw [← hcs]
    exact p.isSpelled_components
  have hspell : ofComponents (leadOf first :: stepsOf rest) = q := by
    rw [← hcs, h, hq]
  have hfirst : (leadOf first).text.toList = first := by
    unfold leadOf
    split
    · next hnil => rw [hnil]; rfl
    · exact Component.text_ofSegment first
  rw [← hspell, segments_ofComponents hspelled (by rwa [hspell]), hfirst, stepsOf, List.map_map]
  congr 1
  exact List.map_id'' (fun s => Component.text_ofSegment s) _

end Path

namespace FileTree

variable {t : FileTree} {p q : Path}

theorem foldlM_step_filter {segments : List (List Char)} {loc loc' : Location}
    (h : segments.foldlM t.step loc = .ok loc') :
    (segments.filter fun s => !Path.isPadding s).foldlM t.step loc = .ok loc' := by
  induction segments generalizing loc with
  | nil => exact h
  | cons s rest ih =>
    obtain ⟨next, hstep, hrest⟩ := foldlM_step_cons.1 h
    by_cases hs : Path.isPadding s = true
    · rw [step_of_isPadding hs (entry?_of_step hstep), Except.ok.injEq] at hstep
      subst hstep
      simpa [hs] using ih hrest
    · rw [List.filter_cons_of_pos (by simpa using hs)]
      exact foldlM_step_cons.2 ⟨next, hstep, ih hrest⟩

/-- The plain spelling takes no more characters than any other. -/
theorem toList_sublist_of_isPlain (h : p.SameAs q) (hq : q.IsPlain) (hroot : q ≠ ⟨"/"⟩)
    (hne : p.text ≠ "") : q.text.toList.Sublist p.text.toList := by
  obtain ⟨first, rest, hsegs⟩ := p.exists_segments
  have hjoin : (Text.joinWith '/' q.segments).Sublist (Text.joinWith '/' p.segments) := by
    rw [h.segments_of_isPlain hq hroot hsegs hne, hsegs]
    exact Text.joinWith_filter_sublist _ first rest
  rwa [Path.segments, Path.segments, Text.joinWith_splitOn, Text.joinWith_splitOn] at hjoin

/-- A path that is not refused is not refused under its plain spelling. -/
theorem refusal?_of_isPlain (h : p.SameAs q) (hq : q.IsPlain) (hroot : q ≠ ⟨"/"⟩)
    (hrefusal : refusal? p = none) : refusal? q = none := by
  obtain ⟨hne, hnul, hshort⟩ := isShort_of_refusal?_eq_none hrefusal
  have hsub := toList_sublist_of_isPlain h hq hroot hne
  have hqshort : IsShort q := by
    have hle := Text.utf8ByteSize_le_of_sublist hsub
    rw [String.ofList_toList, String.ofList_toList] at hle
    exact hle.trans hshort
  have hqne : q.text ≠ "" := by
    rw [← Path.components_ne_nil_iff, ← h, Path.components_ne_nil_iff]
    exact hne
  exact refusal?_eq_none hqne (fun hmem => hnul (hsub.subset hmem)) hqshort

theorem startOf_congr (h : p.SameAs q) : t.startOf p = t.startOf q := by
  have habs : p.isAbsolute = q.isAbsolute := by
    rw [Bool.eq_iff_iff, Path.isAbsolute_iff_head, Path.isAbsolute_iff_head, h]
  rw [startOf, startOf, habs]

/-- Every spelling of the root leads to the root. -/
theorem locate_root_of_sameAs (h : p.SameAs ⟨"/"⟩) {loc : Location}
    (hloc : t.locate p = .ok loc) : t.locate ⟨"/"⟩ = .ok loc := by
  obtain ⟨hrefusal, hfold⟩ := locate_eq_ok hloc
  obtain ⟨first, rest, hsegs⟩ := p.exists_segments
  have hcs := Path.components_of_text_ne hsegs (isShort_of_refusal?_eq_none hrefusal).1
  rw [h, show (⟨"/"⟩ : Path).components = [.root] by decide] at hcs
  obtain ⟨hlead, hsteps⟩ := List.cons.inj hcs
  have hnames : rest.filter (fun s => !Path.isPadding s) = [] := List.map_eq_nil_iff.1 hsteps.symm
  have hstart : t.startOf ⟨"/"⟩ = [] := if_pos (by decide)
  have hfirst : Path.isPadding first = true := by
    have habs : p.isAbsolute = true := by
      rw [Path.isAbsolute_iff_head, h]
      decide
    rw [((Path.isAbsolute_iff hsegs).1 habs).1]
    decide
  have hstays := foldlM_step_filter hfold
  rw [hsegs, List.filter_cons_of_neg (by simp [hfirst]), hnames, startOf_congr h, hstart] at hstays
  obtain rfl : [] = loc := Except.ok.inj hstays
  have hstep : t.step [] [] = .ok [] := step_of_isPadding (by decide) t.root_eq
  rw [locate_of_refusal? (by decide), show (⟨"/"⟩ : Path).segments = [[], []] by decide, hstart]
  simp only [List.foldlM_cons, List.foldlM_nil, hstep, bind, Except.bind, pure, Except.pure]

/-- Without its padding a path still leads where it leads. -/
theorem locate_of_isPlain (h : p.SameAs q) (hq : q.IsPlain) {loc : Location}
    (hloc : t.locate p = .ok loc) : t.locate q = .ok loc := by
  by_cases hroot : q = ⟨"/"⟩
  · subst hroot
    exact locate_root_of_sameAs h hloc
  · obtain ⟨hrefusal, hfold⟩ := locate_eq_ok hloc
    obtain ⟨first, rest, hsegs⟩ := p.exists_segments
    have hne := (isShort_of_refusal?_eq_none hrefusal).1
    rw [locate_of_refusal? (refusal?_of_isPlain h hq hroot hrefusal), ← startOf_congr h,
      h.segments_of_isPlain hq hroot hsegs hne]
    rw [hsegs] at hfold
    obtain ⟨next, hstep, hrest⟩ := foldlM_step_cons.1 hfold
    exact foldlM_step_cons.2 ⟨next, hstep, foldlM_step_filter hrest⟩

/-- A file that can be read under some spelling can be read under the plain one. -/
theorem read_of_isPlain (h : p.SameAs q) (hq : q.IsPlain) {contents : ByteArray}
    (hread : t.read p = .ok contents) : t.read q = .ok contents := by
  obtain ⟨loc, hloc, hentry⟩ := exists_locate_of_read hread
  exact read_of_locate (locate_of_isPlain h hq hloc) hentry

/-- If the file can be read under its plain spelling, it can be read under this
one. -/
def ReadsAsPlain (t : FileTree) (p : Path) : Prop :=
  ∀ q contents, q.IsPlain → p.SameAs q → t.read q = .ok contents → t.read p = .ok contents

theorem readsAsPlain_of_isPlain (hp : p.IsPlain) : t.ReadsAsPlain p := by
  intro q contents hq hsame hread
  rwa [hsame.eq_of_isPlain hp hq]

/-- What is listed in a plain directory is listed under plain paths. -/
theorem readsAsPlain_of_mem_filesBelow {dir : Path} (hdir : dir.IsPlain)
    (h : p ∈ t.filesBelow dir) : t.ReadsAsPlain p := by
  obtain ⟨names, hnames, rfl, hne⟩ := mem_filesBelow h
  exact readsAsPlain_of_isPlain ((pathTo_spec hne hnames).2.2 hdir)

/-- What is read under both spellings is the same. -/
theorem ReadsAsPlain.read_iff (h : t.ReadsAsPlain p) (hq : q.IsPlain) (hsame : p.SameAs q)
    (contents : ByteArray) : t.read p = .ok contents ↔ t.read q = .ok contents :=
  ⟨read_of_isPlain hsame hq, h q contents hq hsame⟩

end FileTree

end Vendoring

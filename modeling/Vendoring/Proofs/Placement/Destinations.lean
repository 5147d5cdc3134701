/-
# Which files share a destination

Seen from the output directory, a file is written below the directory for
packages, under the components that its layout has behind the package tree, or
under the canonical name of a main entry. So two files can meet at one destination
in three ways only: they lie in different package trees, one of them is renamed as
a main entry, or different directories of built variants are left out of their
paths.
-/

import Vendoring.Proofs.Path.Extensions
import Vendoring.Proofs.Placement.Places

namespace Vendoring

namespace Planner

variable {r : Planner} {path file file' : Path} {name name' : String} {isMain : Bool}
variable {place : Placement}

/-- A main entry is renamed to a name. -/
theorem isStep_canonicalName (file : Path) :
    (Component.name (canonicalStem ++ Package.dottedExtension file)).IsStep := by
  have hslash : '/' ∉ (canonicalStem ++ Package.dottedExtension file).toList := by
    rw [String.toList_append, List.mem_append, not_or]
    refine ⟨by decide, ?_⟩
    unfold Package.dottedExtension
    split
    · next extension hextension =>
      rw [String.toList_append, List.mem_append, not_or]
      exact ⟨by decide, (Path.not_mem_of_extension? hextension).1⟩
    · decide
  refine Path.isStep_name hslash (by simp [canonicalStem, Path.isPadding]) fun hup => ?_
  have hchars := congrArg String.toList hup
  simp [canonicalStem] at hchars

theorem isAbsolute_canonicalEntry (hname : (⟨name⟩ : Path).isAbsolute = false) :
    (canonicalEntry file name).isAbsolute = false := by
  have hentry : (⟨canonicalStem ++ Package.dottedExtension file⟩ : Path).isAbsolute = false := by
    simp [Path.isAbsolute, canonicalStem]
  by_cases htext : name = ""
  · show ((⟨name⟩ : Path).join _).isAbsolute = false
    rw [Path.join_of_empty htext]
    exact hentry
  · have hjoin := Path.components_join (p := ⟨name⟩) hentry htext
    rw [Bool.eq_false_iff, Ne, Path.isAbsolute_iff_head] at hname ⊢
    show ¬((⟨name⟩ : Path).join _).components.head? = _
    cases hcs : (⟨name⟩ : Path).components with
    | nil => exact absurd hcs (Path.components_ne_nil_iff.2 htext)
    | cons c cs =>
      rw [hjoin, hcs]
      simpa [hcs] using hname

/-- In the package tree that stands for the output directory, a destination lies in the
directory for packages, under the path that is kept of the file. -/
theorem exists_components_destination (hdirname : '/' ∉ r.npmDirname.toList)
    (hname : (⟨name⟩ : Path).isAbsolute = false) (h : r.place? path name isMain = some place) :
    ∃ tree within,
      Path.splitAtTree (r.plainLayout path.normalize name).components = some (tree, within) ∧
      place.base.components = tree ∧ tree ≠ [] ∧ (∀ c ∈ within, c.IsStep) ∧
      place.destination.components = tree ++ (Path.stepsOf [r.npmDirname.toList] ++
        Path.stepsOf (r.kept path name isMain within).segments) := by
  obtain ⟨tree, within, hsplit, -, rfl⟩ := place?_eq_some h
  obtain ⟨hcs, hlast, -⟩ := Path.splitAtTree_eq_some hsplit
  have hspelled := (r.plainLayout path.normalize name).isSpelled_components
  rw [hcs] at hspelled
  have hbase : (Path.ofComponents tree).components = tree :=
    Path.components_ofComponents hspelled.of_append
  have htree : tree ≠ [] := by
    rintro rfl
    simp at hlast
  have hbaseText : (Path.ofComponents tree).text ≠ "" := by
    rw [← Path.components_ne_nil_iff, hbase]
    exact htree
  have hwithin := Path.isStep_of_splitAtTree hsplit
  have hkept : (r.kept path name isMain within).isAbsolute = false := by
    unfold kept
    split
    · exact isAbsolute_canonicalEntry hname
    · exact (Path.stepsOf_segments_ofComponents hwithin).1
  refine ⟨tree, within, hsplit, hbase, htree, hwithin, ?_⟩
  have htext : (Path.ofComponents tree / r.npmDirname).text ≠ "" :=
    Path.text_join_ne hbaseText (Path.isAbsolute_of_name hdirname)
  rw [Path.components_join hkept htext, Path.components_div hdirname hbaseText, hbase,
    List.append_assoc]

/-- The tree that stands for the output directory is in front of a destination. -/
theorem below?_destination (hdirname : '/' ∉ r.npmDirname.toList)
    (hname : (⟨name⟩ : Path).isAbsolute = false) (h : r.place? path name isMain = some place) :
    place.base.components ≠ [] ∧ place.destination.below? place.base = some place.relative := by
  obtain ⟨tree, within, -, hbase, htree, -, hdestination⟩ :=
    exists_components_destination hdirname hname h
  have hne : place.base.components ≠ [] := by rwa [hbase]
  have hstart : place.destination.StartsWith place.base := by
    rw [Path.StartsWith, hdestination, hbase]
    exact List.prefix_append _ _
  obtain ⟨rest, hrest, -⟩ := Path.exists_below? hstart hne
  refine ⟨hne, ?_⟩
  rw [Placement.relative, Path.belowD, hrest, Option.getD_some]

/-- A destination lies in the output directory for packages, under the path that is kept of
the file. -/
theorem exists_components_relative (hdirname : '/' ∉ r.npmDirname.toList)
    (hname : (⟨name⟩ : Path).isAbsolute = false) (h : r.place? path name isMain = some place) :
    ∃ tree within,
      Path.splitAtTree (r.plainLayout path.normalize name).components = some (tree, within) ∧
      place.base.components = tree ∧ (∀ c ∈ within, c.IsStep) ∧
      place.relative.components = Path.stepsOf [r.npmDirname.toList] ++
        Path.stepsOf (r.kept path name isMain within).segments := by
  obtain ⟨tree, within, hsplit, hbase, -, hwithin, hdestination⟩ :=
    exists_components_destination hdirname hname h
  obtain ⟨hne, hbelow⟩ := below?_destination hdirname hname h
  obtain ⟨-, -, hcomponents, -⟩ := Path.below?_eq_some hbelow hne
  refine ⟨tree, within, hsplit, hbase, hwithin, ?_⟩
  rw [hcomponents, hdestination, hbase, List.drop_left]

/-- A destination is put together from its base and what is seen of it from there. -/
theorem join_relative (hdirname : '/' ∉ r.npmDirname.toList)
    (hname : (⟨name⟩ : Path).isAbsolute = false) (h : r.place? path name isMain = some place) :
    (place.base.join place.relative).SameAs place.destination := by
  obtain ⟨hne, hbelow⟩ := below?_destination hdirname hname h
  obtain ⟨⟨rest, hrest⟩, -⟩ := Path.below?_eq_some hbelow hne
  rw [Path.SameAs, Path.components_join_below hbelow hne, ← hrest, List.drop_left]

/-- A file that is not renamed keeps what its layout has behind the package tree. -/
theorem components_relative (hdirname : '/' ∉ r.npmDirname.toList)
    (hname : (⟨name⟩ : Path).isAbsolute = false) (h : r.place? path name isMain = some place) :
    ∃ steps, place.relative.components = Path.stepsOf [r.npmDirname.toList] ++ steps ∧
      ((isMain && r.renamesMain) = false →
        place.base.components ++ steps = (r.plainLayout path.normalize name).components) := by
  obtain ⟨tree, within, hsplit, hbase, hwithin, hrelative⟩ :=
    exists_components_relative hdirname hname h
  refine ⟨_, hrelative, fun hrenamed => ?_⟩
  rw [kept, hrenamed, if_neg (by simp), (Path.stepsOf_segments_ofComponents hwithin).2, hbase,
    (Path.splitAtTree_eq_some hsplit).1]

/-- A main entry is written under the canonical name, directly in the directory of its
package. -/
theorem relative_of_isMain (hrenames : r.renamesMain = true)
    (hname : (⟨name⟩ : Path).isAbsolute = false) (h : r.place? path name true = some place) :
    place.relative.SameAs
      ((⟨defaultNpmDirname⟩ : Path).join (canonicalEntry path.normalize name)) := by
  have hdirname : r.npmDirname = defaultNpmDirname := by simpa [renamesMain] using hrenames
  have hslash : '/' ∉ defaultNpmDirname.toList := by decide
  have hfront : (⟨defaultNpmDirname⟩ : Path).components = Path.stepsOf [defaultNpmDirname.toList] := by
    have hsegments := Path.segments_of_name hslash
    rw [(Path.components_of_head hsegments (by decide)).2, hsegments]
  obtain ⟨tree, within, -, -, -, hrelative⟩ :=
    exists_components_relative (hdirname ▸ hslash) hname h
  rw [kept, hrenames, if_pos (by simp), hdirname] at hrelative
  rw [Path.SameAs, hrelative, Path.components_join (isAbsolute_canonicalEntry hname) (by decide), hfront]

/-- The package whose built variant is left out of the path of a file. -/
def leftOut? (r : Planner) (file : Path) (name : String) : Option Package :=
  (r.packageFor? file name).filter fun p => (p.alternateOutput.bind file.below?).isSome

theorem plainLayout_of_leftOut?_eq_none (h : r.leftOut? file name = none) :
    r.plainLayout file name = file := by
  rcases r.plainLayout_eq file name with heq | ⟨p, dir, rest, hp, hdir, hrest, -⟩
  · exact heq
  · simp [leftOut?, hp, hdir, hrest] at h

theorem plainLayout_of_leftOut? {p : Package} (h : r.leftOut? file name = some p) :
    ∃ dir rest, r.packageFor? file name = some p ∧ p.alternateOutput = some dir ∧
      file.below? dir = some rest ∧ r.plainLayout file name = p.root.join rest := by
  obtain ⟨hp, hrest⟩ := Option.filter_eq_some_iff.1 h
  obtain ⟨rest, hrest⟩ := Option.isSome_iff_exists.1 hrest
  obtain ⟨dir, hdir, hrest⟩ := Option.bind_eq_some_iff.1 hrest
  refine ⟨dir, rest, hp, hdir, hrest, ?_⟩
  simp [plainLayout, hp, Package.stripAlternateOutput, hdir, hrest]

/-- Where one variant is left out, or none, the layout determines the file. -/
theorem sameAs_of_plainLayout
    (hdirs : ∀ p dir, r.packageFor? file name = some p → p.alternateOutput = some dir →
      dir.text ≠ "")
    (hleft : r.leftOut? file name = r.leftOut? file' name')
    (h : (r.plainLayout file name).SameAs (r.plainLayout file' name')) : file.SameAs file' := by
  cases hp : r.leftOut? file name with
  | none =>
    rw [plainLayout_of_leftOut?_eq_none hp, plainLayout_of_leftOut?_eq_none (hleft ▸ hp)] at h
    exact h
  | some p =>
    obtain ⟨dir, rest, hpackage, hdir, hrest, hlayout⟩ := plainLayout_of_leftOut? hp
    obtain ⟨dir', rest', -, hdir', hrest', hlayout'⟩ := plainLayout_of_leftOut? (hleft ▸ hp)
    obtain rfl : dir = dir' := Option.some.inj (hdir.symm.trans hdir')
    have hne : dir.components ≠ [] := Path.components_ne_nil_iff.2 (hdirs p dir hpackage hdir)
    obtain ⟨hstart, -⟩ := Path.below?_eq_some hrest hne
    obtain ⟨hstart', -⟩ := Path.below?_eq_some hrest' hne
    rw [hlayout, hlayout', Path.SameAs, Path.components_join_below hrest hne,
      Path.components_join_below hrest' hne, List.append_cancel_left_eq] at h
    obtain ⟨more, hmore⟩ := hstart
    obtain ⟨more', hmore'⟩ := hstart'
    rw [← hmore, ← hmore', List.drop_left, List.drop_left] at h
    rw [Path.SameAs, ← hmore, ← hmore', h]

/-- What can bring two files to one destination. -/
inductive Merges (r : Planner) (p q : Placement) : Prop
  /-- The trees that they lie in are told apart no more. -/
  | trees : ¬p.base.SameAs q.base → Merges r p q
  /-- One of them takes the canonical name of a main entry. -/
  | mains : r.renamesMain = true → p.isMain = true ∨ q.isMain = true → Merges r p q
  /-- The variant of one package is left out of only one of their paths. -/
  | variants : r.leftOut? p.source p.package ≠ r.leftOut? q.source q.package → Merges r p q

/-- Two files that meet at one destination are the same, or the rules merge them. -/
theorem sameAs_or_merges {path' : Path} {isMain' : Bool} {place' : Placement}
    (hdirname : '/' ∉ r.npmDirname.toList)
    (hdirs : ∀ p dir, r.packageFor? path.normalize name = some p → p.alternateOutput = some dir →
      dir.text ≠ "")
    (hname : (⟨name⟩ : Path).isAbsolute = false) (hname' : (⟨name'⟩ : Path).isAbsolute = false)
    (h : r.place? path name isMain = some place) (h' : r.place? path' name' isMain' = some place')
    (hrelative : place.relative.SameAs place'.relative) :
    place.source.SameAs place'.source ∨ r.Merges place place' := by
  obtain ⟨steps, hsteps, hlayout⟩ := components_relative hdirname hname h
  obtain ⟨steps', hsteps', hlayout'⟩ := components_relative hdirname hname' h'
  obtain ⟨hsource, hpackage, hmain⟩ := fields_of_place? h
  obtain ⟨hsource', hpackage', hmain'⟩ := fields_of_place? h'
  by_cases hbase : place.base.SameAs place'.base
  · by_cases hrenamed : (isMain && r.renamesMain) = false ∧ (isMain' && r.renamesMain) = false
    · by_cases hleft : r.leftOut? place.source place.package =
          r.leftOut? place'.source place'.package
      · left
        have heq : steps = steps' := by
          rw [Path.SameAs, hsteps, hsteps', List.append_cancel_left_eq] at hrelative
          exact hrelative
        rw [hsource, hsource'] at hleft ⊢
        rw [hpackage, hpackage'] at hleft
        refine sameAs_of_plainLayout hdirs hleft ?_
        rw [Path.SameAs, ← hlayout hrenamed.1, ← hlayout' hrenamed.2, heq, hbase]
      · exact .inr (.variants hleft)
    · right
      rw [not_and_or, Bool.not_eq_false, Bool.not_eq_false, Bool.and_eq_true,
        Bool.and_eq_true] at hrenamed
      rw [← hmain, ← hmain'] at hrenamed
      rcases hrenamed with ⟨hmain, hrenames⟩ | ⟨hmain, hrenames⟩
      · exact .mains hrenames (.inl hmain)
      · exact .mains hrenames (.inr hmain)
  · exact .inr (.trees hbase)

end Planner

end Vendoring

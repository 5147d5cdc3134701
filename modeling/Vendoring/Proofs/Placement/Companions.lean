/-
# Placing files side by side

Files of one directory belong to one package, since packages are directories. The
directory of a built variant is left out of both of their paths or of neither. So
their own places lie side by side again, and only the renaming of a main entry can
take one of them away from the other.
-/

import Vendoring.Proofs.FileTree.Siblings
import Vendoring.Proofs.Placement.Destinations

namespace Vendoring

open Catalog

/-- The path is normal, ends in the name behind the given components, and means a file. -/
structure FileTree.LiesIn (t : FileTree) (cs : List Component) (name : String) (p : Path) :
    Prop where
  components_eq : p.components = cs ++ [.name name]
  normalize_eq : p.normalize = p
  entry : ∃ contents, t.entry? (t.locationOf p) = some (.file contents)

namespace FileTree.LiesIn

variable {t : FileTree} {cs : List Component} {a : String} {p : Path}

/-- A file is not the same as a directory, so a directory that it starts with is in front of
its name. -/
theorem startsWith_iff (h : t.LiesIn cs a p) {dir : Path} (hdir : t.isDirectory dir = true) :
    p.StartsWith dir ↔ dir.components <+: cs := by
  rw [Path.StartsWith, h.components_eq]
  refine ⟨fun hstart => ?_, fun hstart => hstart.trans (List.prefix_append _ _)⟩
  rcases List.prefix_concat_iff.1 hstart with heq | hstart
  · obtain ⟨contents, hfile⟩ := h.entry
    have hsame : dir.SameAs p := heq.trans h.components_eq.symm
    rw [← locationOf_congr hsame, entry?_of_isDirectory hdir] at hfile
    simp at hfile
  · exact hstart

end FileTree.LiesIn

/-- The components of the directory of a file as if the package had no built variant. -/
def Package.plainDirectory (p : Package) (cs : List Component) : List Component :=
  match p.alternateOutput with
  | some dir =>
    if dir.components <+: cs then p.root.components ++ cs.drop dir.components.length else cs
  | none => cs

namespace Planner

variable {t : FileTree} {l : Loader} {root : Path} {r : Planner}
variable {cs : List Component} {a b name : String} {p q : Path} {isMain : Bool} {place : Placement}

section Survey

variable (hsurvey : IsSurvey t l root r.catalog)

include hsurvey

/-- Files of one directory belong to one package. -/
theorem packageFor?_eq_of_liesIn (hp : t.LiesIn cs a p) (hq : t.LiesIn cs b q) :
    r.packageFor? p name = r.packageFor? q name := by
  have howner : r.catalog.owner? p = r.catalog.owner? q := by
    obtain ⟨contents, hfile⟩ := hp.entry
    obtain ⟨contents', hfile'⟩ := hq.entry
    exact Path.findSome?_ancestors_of_name (fun d d' hsame => hsame.getElem? _) hp.components_eq
      hq.components_eq (hsurvey.byRoot_eq_none hfile) (hsurvey.byRoot_eq_none hfile')
  rw [packageFor?, packageFor?, howner]

/-- A file keeps its name when the directory of a variant is left out, and where it then lies
is decided by its directory. -/
theorem components_plainLayout (name : String) (hp : t.LiesIn cs a p) :
    (r.plainLayout p name).components =
      ((r.packageFor? p name).elim cs fun k => k.plainDirectory cs) ++ [.name a] := by
  unfold plainLayout
  cases hpackage : r.packageFor? p name with
  | none => exact hp.components_eq
  | some k =>
    simp only [Package.stripAlternateOutput, Package.plainDirectory, Option.elim_some]
    cases halternate : k.alternateOutput with
    | none => exact hp.components_eq
    | some dir =>
      obtain ⟨hdir, -⟩ := (isEntered_of_packageFor? hsurvey hpackage).alternateOutput halternate
      obtain ⟨loc, hloc, -⟩ := FileTree.exists_locate_of_isDirectory hdir
      have hne := Path.components_ne_nil_iff.2 (FileTree.text_ne_of_locate hloc)
      by_cases hstart : dir.components <+: cs
      · obtain ⟨rest, hrest, -⟩ := Path.exists_below? ((hp.startsWith_iff hdir).2 hstart) hne
        simp only [Option.bind_some, hrest, if_pos hstart]
        rw [Path.components_join_below hrest hne, hp.components_eq, List.append_assoc,
          List.drop_append_of_le_length hstart.length_le]
      · have hbelow : p.below? dir = none :=
          Path.below?_eq_none fun h => hstart ((hp.startsWith_iff hdir).1 h)
        simp only [Option.bind_some, hbelow, if_neg hstart]
        exact hp.components_eq

end Survey

/-- A file that has a place has one of its own, where it is not renamed. It keeps its name
there, behind what the directory of its layout has behind the package tree. -/
theorem exists_own_place (hdirname : '/' ∉ r.npmDirname.toList)
    (hname : (⟨name⟩ : Path).isAbsolute = false) (h : r.place? p name isMain = some place)
    (hlayout : (r.plainLayout p.normalize name).components = cs ++ [.name a]) :
    ∃ own tree within, r.place? p name false = some own ∧
      Path.splitAtTree cs = some (tree, within) ∧
      own.relative.components =
        Path.stepsOf [r.npmDirname.toList] ++ within ++ [.name a] := by
  obtain ⟨tree, within, hsplit, hwithin, -⟩ := place?_eq_some h
  obtain ⟨own, hown⟩ : ∃ own, r.place? p name false = some own :=
    ⟨_, place?_of_split hsplit hwithin⟩
  obtain ⟨tree', within', hsplit', -, hsteps, hrelative⟩ :=
    exists_components_relative hdirname hname hown
  obtain ⟨rfl, rfl⟩ := Prod.mk.inj (Option.some.inj (hsplit.symm.trans hsplit'))
  rw [kept, if_neg (by simp), (Path.stepsOf_segments_ofComponents hsteps).2] at hrelative
  rw [hlayout] at hsplit
  obtain ⟨-, front, hfront, rfl⟩ := Path.exists_of_splitAtTree_append_name hsplit hwithin
  exact ⟨own, tree, front, hown, hfront, by rw [hrelative, List.append_assoc]⟩

/-- The own places of files that lie in one directory lie in one directory. -/
theorem own_places_neighbours (hsurvey : IsSurvey t l root r.catalog)
    (hdirname : '/' ∉ r.npmDirname.toList) (hname : (⟨name⟩ : Path).isAbsolute = false)
    (hp : t.LiesIn cs a p) (hq : t.LiesIn cs b q) {isMain' : Bool} {place' : Placement}
    (h : r.place? p name isMain = some place) (h' : r.place? q name isMain' = some place') :
    ∃ ds own own', r.place? p name false = some own ∧ r.place? q name false = some own' ∧
      own.relative.components = ds ++ [.name a] ∧ own'.relative.components = ds ++ [.name b] := by
  have hlayout := components_plainLayout hsurvey name hp
  have hlayout' := components_plainLayout hsurvey name hq
  rw [← packageFor?_eq_of_liesIn hsurvey hp hq] at hlayout'
  obtain ⟨own, tree, within, hown, hsplit, hrelative⟩ :=
    exists_own_place hdirname hname h (by rw [hp.normalize_eq]; exact hlayout)
  obtain ⟨own', tree', within', hown', hsplit', hrelative'⟩ :=
    exists_own_place hdirname hname h' (by rw [hq.normalize_eq]; exact hlayout')
  obtain ⟨rfl, rfl⟩ := Prod.mk.inj (Option.some.inj (hsplit.symm.trans hsplit'))
  exact ⟨_, own, own', hown, hown', hrelative, hrelative'⟩

/-- The file is renamed as a main entry, and this takes it away from where it would lie by
its own path. -/
def Moves (r : Planner) (place : Placement) : Prop :=
  place.isMain = true ∧ r.renamesMain = true ∧
    ∀ own, r.place? place.source place.package false = some own →
      ¬own.relative.Accompanies place.relative

/-- A file stays beside its own place unless it moves. -/
theorem accompanies_own_iff {own : Placement} (hnormal : p.normalize = p)
    (h : r.place? p name isMain = some place) (hown : r.place? p name false = some own) :
    own.relative.Accompanies place.relative ↔ ¬r.Moves place := by
  obtain ⟨hsource, hpackage, hmain⟩ := fields_of_place? h
  rw [hnormal] at hsource
  constructor
  · rintro haccompanies ⟨-, -, hmoves⟩
    exact hmoves own (by rw [hsource, hpackage, hown]) haccompanies
  · intro hstays
    by_cases hrenamed : (isMain && r.renamesMain) = true
    · rw [Bool.and_eq_true] at hrenamed
      by_contra haway
      refine hstays ⟨hmain.trans hrenamed.1, hrenamed.2, fun own' hown' => ?_⟩
      rw [hsource, hpackage, hown] at hown'
      rwa [← Option.some.inj hown']
    · -- nothing is renamed, so the place is the file's own
      obtain ⟨tree, within, hsplit, hwithin, rfl⟩ := place?_eq_some h
      obtain rfl := Option.some.inj (hown.symm.trans (place?_of_split hsplit hwithin))
      have hkept : r.kept p name isMain within = r.kept p name false within := by
        simp [kept, hrenamed]
      rw [Placement.relative, Placement.relative, hkept]
      exact .refl _

/-- A package has one main entry, so main files of one directory and name are one file. -/
theorem sameAs_of_isMainFile (hpackage : r.packageFor? p name = r.packageFor? q name)
    (hp : p.normalize = p) (hq : q.normalize = q) (hmain : r.isMainFile p name = true)
    (hmain' : r.isMainFile q name = true) : p.SameAs q := by
  simp only [isMainFile, hp] at hmain
  simp only [isMainFile, hq, ← hpackage] at hmain'
  cases hentry : (r.packageFor? p name).bind Package.mainEntryPath? with
  | none => simp [hentry] at hmain
  | some main =>
    simp only [hentry, decide_eq_true_eq] at hmain hmain'
    exact hmain.symm.trans hmain'

/-- Files that lie side by side and have one stem are placed so again, unless one of them
alone moves. Both can move only if they are one file. -/
theorem accompanies_iff_moves (hsurvey : IsSurvey t l root r.catalog)
    (hdirname : '/' ∉ r.npmDirname.toList) (hname : (⟨name⟩ : Path).isAbsolute = false)
    (hp : t.LiesIn cs a p) (hq : t.LiesIn cs b q)
    (hstem : (Path.splitName a).1 = (Path.splitName b).1) {place' : Placement}
    (h : r.place? p name (r.isMainFile p name) = some place)
    (h' : r.place? q name (r.isMainFile q name) = some place') :
    place.relative.Accompanies place'.relative ↔ (r.Moves place ↔ r.Moves place') := by
  obtain ⟨ds, own, own', hown, hown', hrelative, hrelative'⟩ :=
    own_places_neighbours hsurvey hdirname hname hp hq h h'
  have howns : own.relative.Accompanies own'.relative :=
    (Path.accompanies_iff hrelative hrelative').2 ⟨rfl, hstem⟩
  have hstays := accompanies_own_iff hp.normalize_eq h hown
  have hstays' := accompanies_own_iff hq.normalize_eq h' hown'
  by_cases hmoves : r.Moves place <;> by_cases hmoves' : r.Moves place'
  · -- both files are the main entry of one package
    have hmain : r.isMainFile p name = true := (fields_of_place? h).2.2.symm.trans hmoves.1
    have hmain' : r.isMainFile q name = true := (fields_of_place? h').2.2.symm.trans hmoves'.1
    have hsame := sameAs_of_isMainFile (packageFor?_eq_of_liesIn hsurvey hp hq) hp.normalize_eq
      hq.normalize_eq hmain hmain'
    rw [isMainFile_congr hsame, place?_congr hsame, h'] at h
    obtain rfl := Option.some.inj h
    exact iff_of_true (.refl _) Iff.rfl
  · have hbeside := hstays'.2 hmoves'
    refine iff_of_false (fun hcon => ?_) (by simp [hmoves, hmoves'])
    exact hstays.1 (howns.trans (hbeside.trans hcon.symm)) hmoves
  · have hbeside := hstays.2 hmoves
    refine iff_of_false (fun hcon => ?_) (by simp [hmoves, hmoves'])
    exact hstays'.1 (howns.symm.trans (hbeside.trans hcon)) hmoves'
  · refine iff_of_true ?_ (by simp [hmoves, hmoves'])
    exact (hstays.2 hmoves).symm.trans (howns.trans (hstays'.2 hmoves'))

end Planner

end Vendoring

/-
# What a search finds

The loader gives the first file among all the paths that a specifier may mean, from an absolute
directory on an absolute path. As long as extensions only lengthen the name of a file, that path
is also normal: a target is normalized before it is tried, an extension cannot undo this, and
where the target is the root itself, the endings that could are those that lead back to the
root, which is no file. What was found can therefore be looked up again by its own text, from
anywhere, unless that text reads as another one.
-/

import Vendoring.FileTree.Edit
import Vendoring.Proofs.FileTree.Locations
import Vendoring.Proofs.Path.Canonical
import Vendoring.Proofs.Resolver.Rooted
import Vendoring.Proofs.Resolver.Spelling

namespace Vendoring

open Text

namespace Path

variable {p : Path}

theorem IsRooted.isNormal (h : p.IsRooted) (hp : p.IsPlain) : p.IsNormal :=
  normalize_eq_self_iff.1 (h.normalize_eq hp)

theorem IsNormal.isRooted (h : p.IsNormal) (habs : p.isAbsolute = true) : p.IsRooted := by
  rw [← normalize_eq_self_iff.2 h]
  exact isRooted_normalize habs

/-- An absolute path that goes down by names is normal. -/
theorem isNormal_of_segments (habs : p.isAbsolute = true) {first : List Char}
    {rest : List (List Char)} (h : p.segments = first :: rest)
    (hrest : ∀ s ∈ rest, isPadding s = false ∧ s ≠ ['.', '.']) : p.IsNormal := by
  refine IsRooted.isNormal (isRooted_of_segments habs fun hmem => ?_)
    (isPlain_of_segments h fun s hs => (hrest s hs).1)
  rw [h, ((isAbsolute_iff h).1 habs).1, List.mem_cons] at hmem
  rcases hmem with hmem | hmem
  · cases hmem
  · exact (hrest _ hmem).2 rfl

/-- The pieces of a normal path from the root are names. -/
theorem IsNormal.of_mem_segments (hp : p.IsNormal) (habs : p.isAbsolute = true)
    (hroot : p ≠ ⟨"/"⟩) {first s : List Char} {rest : List (List Char)}
    (h : p.segments = first :: rest) (hs : s ∈ rest) : isPadding s = false ∧ s ≠ ['.', '.'] := by
  refine ⟨hp.plain.not_padding hroot h s hs, ?_⟩
  rintro rfl
  exact (hp.isRooted habs).not_mem_segments (by simp [h, hs])

end Path

namespace FileTree

variable {t : FileTree} {p : Path}

theorem not_isFile_of_locationOf (h : t.locationOf p = []) : t.isFile p = false := by
  rw [Bool.eq_false_iff]
  intro hfile
  obtain ⟨loc, contents, hloc, hentry⟩ := exists_locate_of_isFile hfile
  have hroot : t.entry? [] = some .directory := t.root_eq
  rw [← locationOf_of_locate hloc, h, hroot] at hentry
  cases hentry

/-- A file behind the root has a name. -/
theorem name_of_isFile_root {u : List Char} (h : t.isFile ⟨"/" ++ String.ofList u⟩ = true) :
    Path.isPadding u = false ∧ u ≠ ['.', '.'] := by
  have hnot {u : List Char} (hloc : t.locationOf ⟨"/" ++ String.ofList u⟩ = [])
      (h : t.isFile ⟨"/" ++ String.ofList u⟩ = true) : False :=
    Bool.false_ne_true ((not_isFile_of_locationOf hloc).symm.trans h)
  constructor
  · rw [Bool.eq_false_iff]
    intro hpad
    obtain rfl | rfl : u = [] ∨ u = ['.'] := by simpa [Path.isPadding] using hpad
    · exact hnot rfl h
    · exact hnot rfl h
  · rintro rfl
    exact hnot rfl h

/-- A file whose path is a normal path with an ending stands at a normal path again. -/
theorem isNormal_append_of_isFile (hp : p.IsNormal) (habs : p.isAbsolute = true) {u : List Char}
    (hslash : '/' ∉ u) (h : t.isFile ⟨p.text ++ String.ofList u⟩ = true) :
    (⟨p.text ++ String.ofList u⟩ : Path).IsNormal := by
  obtain ⟨parts, last, hs, hsu⟩ := splitOn_append_of_not_mem (s := p.text.toList) hslash
  have hjoined : (⟨p.text ++ String.ofList u⟩ : Path).segments = parts ++ [last ++ u] := by
    simpa [Path.segments] using hsu
  cases parts with
  | nil => exact absurd rfl ((Path.isAbsolute_iff hs).1 habs).2
  | cons first parts =>
    refine Path.isNormal_of_segments (Path.isAbsolute_append habs _) hjoined fun s hmem => ?_
    by_cases hroot : p = ⟨"/"⟩
    · subst hroot
      -- the root splits into two empty pieces, so the ending is the only name
      obtain ⟨rfl, rfl⟩ : parts = [] ∧ last = [] := by
        rw [show (⟨"/"⟩ : Path).text.toList = ['/'] from rfl,
          show splitOn '/' ['/'] = [[], []] from rfl, List.cons_append, List.cons.injEq] at hs
        cases parts with
        | nil => simpa using hs.2.symm
        | cons part parts => simp at hs
      obtain rfl : s = u := by simpa using hmem
      exact name_of_isFile_root h
    · rcases List.mem_append.1 hmem with hmem | hmem
      · exact hp.of_mem_segments habs hroot hs (List.mem_append_left _ hmem)
      · obtain rfl := List.mem_singleton.1 hmem
        -- the last name was one before it became longer
        obtain ⟨hpad, hdots⟩ := hp.of_mem_segments habs hroot hs (by simp : last ∈ parts ++ [last])
        obtain ⟨hne, hdot⟩ : last ≠ [] ∧ last ≠ ['.'] := by simpa [Path.isPadding] using hpad
        obtain ⟨c, cs, rfl⟩ := List.exists_cons_of_ne_nil hne
        rw [Path.isPadding, Bool.or_eq_false_iff, decide_eq_false_iff_not,
          decide_eq_false_iff_not, List.cons_append]
        refine ⟨⟨List.cons_ne_nil _ _, fun heq => ?_⟩, fun heq => ?_⟩
        · obtain ⟨rfl, htail⟩ := List.cons.inj heq
          exact hdot (by rw [(List.append_eq_nil_iff.1 htail).1])
        · obtain ⟨rfl, htail⟩ := List.cons.inj heq
          rcases List.append_eq_singleton_iff.1 htail with ⟨rfl, -⟩ | ⟨rfl, -⟩
          · exact hdot rfl
          · exact hdots rfl

end FileTree

namespace Loader

variable {l : Loader} {t : FileTree} {base p q dir target : Path} {specifier : String}

/-! ## The candidates -/

/-- A candidate of an absolute path means a file or an index at a normal path from the root. -/
theorem exists_target_of_mem_candidates (hp : p.isAbsolute = true) (h : q ∈ l.candidates t p) :
    ∃ target : Path, target.IsNormal ∧ target.isAbsolute = true ∧
      (q ∈ l.fileCandidates target ∨ q ∈ l.indexCandidates target) := by
  have habs : p.normalize.isAbsolute = true := p.isAbsolute_normalize.trans hp
  rcases List.mem_append.1 h with h | h
  · exact ⟨_, p.isNormal_normalize, habs, .inl h⟩
  · obtain ⟨-, ⟨main, -, h⟩ | h⟩ := mem_directoryCandidates_iff.1 h
    · exact ⟨_, Path.isNormal_normalize _,
        (Path.isAbsolute_normalize _).trans (Path.isAbsolute_join habs _), h⟩
    · exact ⟨_, p.isNormal_normalize, habs, .inr h⟩

theorem isAbsolute_of_mem_candidates (hp : p.isAbsolute = true) (h : q ∈ l.candidates t p) :
    q.isAbsolute = true := by
  obtain ⟨target, -, habs, h | h⟩ := exists_target_of_mem_candidates hp h
  · rcases List.mem_cons.1 h with rfl | h
    · exact habs
    · obtain ⟨extension, -, rfl⟩ := List.mem_map.1 h
      exact Path.isAbsolute_append habs extension
  · obtain ⟨extension, -, rfl⟩ := List.mem_map.1 h
    exact Path.isAbsolute_join habs _

/-- The candidates of an absolute path that are files are normal. -/
theorem isNormal_of_mem_candidates (hl : l.IsFlat) (hp : p.isAbsolute = true)
    (h : q ∈ l.candidates t p) (hfile : t.isFile q = true) : q.IsNormal := by
  obtain ⟨target, htarget, habs, h | h⟩ := exists_target_of_mem_candidates hp h
  · rcases List.mem_cons.1 h with rfl | h
    · exact htarget
    · obtain ⟨extension, hmem, rfl⟩ := List.mem_map.1 h
      rw [← extension.ofList_toList] at hfile ⊢
      exact FileTree.isNormal_append_of_isFile htarget habs (hl extension hmem) hfile
  · exact (isRooted_of_mem_indexCandidates hl (htarget.isRooted habs) h).isNormal
      (isPlain_of_mem_indexCandidates hl htarget.plain htarget.nonempty h)

/-- What is tried for a specifier is tried for one of the absolute paths that it may mean. -/
theorem exists_of_mem_candidatesFrom (hbase : base.isAbsolute = true)
    (h : q ∈ l.candidatesFrom t base specifier) :
    ∃ p : Path, p.isAbsolute = true ∧ q ∈ l.candidates t p := by
  have hbare (h : q ∈ l.bareCandidates t base specifier) :
      ∃ p : Path, p.isAbsolute = true ∧ q ∈ l.candidates t p := by
    obtain ⟨dir, hdir, h⟩ := List.mem_flatMap.1 h
    have hdir := Path.isAbsolute_of_mem_outward hbase (List.mem_filter.1 hdir).1
    exact ⟨_, Path.isAbsolute_join (Path.isAbsolute_join hdir _) _, h⟩
  rw [candidatesFrom] at h
  cases hparse : Specifier.parse specifier with
  | empty =>
    rw [hparse] at h
    cases h
  | absolute path => exact ⟨_, Specifier.isAbsolute_of_parse hparse, by rwa [hparse] at h⟩
  | relative path => exact ⟨_, Path.isAbsolute_join hbase _, by rwa [hparse] at h⟩
  | inScope name subpath => exact hbare (by rwa [hparse] at h)
  | plain name subpath => exact hbare (by rwa [hparse] at h)

/-! ## The search -/

/-- A bare name is looked for in the same places, however their paths are spelled. -/
theorem findSome?_installPlaces (hbase : base.isAbsolute = true) (specifier : String) :
    (installPlaces base specifier).findSome? (l.loadPath? t) =
      (l.bareCandidates t base specifier).find? t.isFile := by
  have hplaces := Path.map_components_filter (Path.map_components_outward hbase)
    (f := fun dir => !dir.endsWithName packageTreeName) fun _ _ hsame => by
      rw [hsame.endsWithName]
  have hends : (fun dir : Path => decide (dir.components.getLast? ≠ some (.name packageTreeName))) =
      fun dir => !dir.endsWithName packageTreeName := funext fun dir => decide_not
  simp only [installPlaces, bareCandidates, hends, List.findSome?_map, List.find?_flatMap,
    ← loadPath?_eq]
  symm
  exact Path.findSome?_congr hplaces fun dir _ dir' hsame =>
    loadPath?_congr l t ((hsame.div _).div _)

/-- A specifier leads to the first of its candidates that is a file. -/
theorem resolve?_eq (hbase : base.isAbsolute = true) (specifier : String) :
    l.resolve? t base specifier = (l.candidatesFrom t base specifier).find? t.isFile := by
  rw [resolve?, candidatesFrom]
  cases Specifier.parse specifier with
  | empty => rfl
  | absolute path => exact loadPath?_eq _
  | relative path => exact loadPath?_eq _
  | inScope name subpath => exact findSome?_installPlaces hbase specifier
  | plain name subpath => exact findSome?_installPlaces hbase specifier

/-- A file at a normal path is found again by the text of its path. -/
theorem resolve?_of_isNormal (hq : q.IsNormal) (habs : q.isAbsolute = true)
    (hfile : t.isFile q = true) (hslash : '\\' ∉ q.text.toList) (htrim : trim q.text = q.text)
    (base : Path) : l.resolve? t base q.text = some q := by
  have hclean : Specifier.clean q.text = q.text.toList := by
    rw [Specifier.clean, htrim]
    conv_rhs => rw [← List.map_id q.text.toList]
    refine List.map_congr_left fun c hc => if_neg ?_
    rintro rfl
    exact hslash hc
  have hhead : q.text.toList.head? = some '/' := by simpa [Path.isAbsolute] using habs
  have hparse : Specifier.parse q.text = .absolute q.text := by
    rw [Specifier.parse, hclean, if_neg, if_pos hhead, String.ofList_toList]
    intro hnil
    simp [hnil] at hhead
  have hload : l.loadPath? t q = some q := by
    rw [loadPath?, Path.normalize_eq_self_iff.2 hq, asFile?, if_pos hfile]
    rfl
  simpa only [resolve?, hparse] using hload

/-- What is found is a file and was tried for an absolute path. -/
theorem exists_of_resolve? (hbase : base.isAbsolute = true)
    (h : l.resolve? t base specifier = some q) :
    t.isFile q = true ∧ ∃ p : Path, p.isAbsolute = true ∧ q ∈ l.candidates t p := by
  rw [resolve?_eq hbase] at h
  exact ⟨List.find?_some h, exists_of_mem_candidatesFrom hbase (List.mem_of_find?_eq_some h)⟩

variable (l t) in
/-- What the loader finds again: the path is normal, and its text leads to it from everywhere,
unless that text holds a backslash or ends in white space. -/
def IsFoundAgain (q : Path) : Prop :=
  q.IsNormal ∧ ('\\' ∉ q.text.toList → trim q.text = q.text →
    ∀ base, l.resolve? t base q.text = some q)

theorem isFoundAgain_of_resolve? (hl : l.IsFlat) (hbase : base.isAbsolute = true)
    (h : l.resolve? t base specifier = some q) : l.IsFoundAgain t q := by
  obtain ⟨hfile, p, hp, hmem⟩ := exists_of_resolve? hbase h
  have hnormal := isNormal_of_mem_candidates hl hp hmem hfile
  exact ⟨hnormal, fun hslash htrim =>
    resolve?_of_isNormal hnormal (isAbsolute_of_mem_candidates hp hmem) hfile hslash htrim⟩

/-- What is found is the first file among the paths that the specifier may mean, and nothing is
found if there is none. It is found on an absolute path. With the extensions that a loader has
by default, or any others that hold no slash, this path is normal and is found again by its
text. -/
theorem resolve?_finds_first (l : Loader) (t : FileTree) {base : Path}
    (hbase : base.isAbsolute = true) (specifier : String) :
    (∀ q, l.resolve? t base specifier = some q ↔ t.isFile q = true ∧ ∃ before behind,
      l.candidatesFrom t base specifier = before ++ q :: behind ∧
        ∀ p ∈ before, t.isFile p = false) ∧
    (l.resolve? t base specifier = none ↔
      ∀ p ∈ l.candidatesFrom t base specifier, t.isFile p = false) ∧
    (∀ q, l.resolve? t base specifier = some q →
      q.isAbsolute = true ∧ (l.IsFlat → l.IsFoundAgain t q)) ∧
    ∀ q, ({} : Loader).resolve? t base specifier = some q → ({} : Loader).IsFoundAgain t q := by
  refine ⟨fun q => ?first, ?none, fun q h => ⟨?absolute, fun hl => ?flat⟩, fun q h => ?default⟩
  case first => simp [resolve?_eq hbase, List.find?_eq_some_iff_append]
  case none => simp [resolve?_eq hbase, List.find?_eq_none]
  case absolute =>
    obtain ⟨-, p, hp, hmem⟩ := exists_of_resolve? hbase h
    exact isAbsolute_of_mem_candidates hp hmem
  case flat => exact isFoundAgain_of_resolve? hl hbase h
  case default => exact isFoundAgain_of_resolve? isPlain_default.isFlat hbase h

/-- Three packages that declare a main file: `p` leaves out its extension, `q` means the index
of a directory, and that of `r` is missing. Each has an index, and a second `p` lies where no
package is looked for. -/
def mainsTree : FileTree :=
  FileTree.ofEntries [(["node_modules"], .directory), (["node_modules", "p"], .directory),
    (["node_modules", "p", "package.json"], .file "\x7b\"main\":\"lib\"\x7d".toUTF8),
    (["node_modules", "p", "lib.js"], .file "".toUTF8),
    (["node_modules", "p", "index.js"], .file "".toUTF8), (["node_modules", "q"], .directory),
    (["node_modules", "q", "package.json"], .file "\x7b\"main\":\"./dist/\"\x7d".toUTF8),
    (["node_modules", "q", "dist"], .directory),
    (["node_modules", "q", "dist", "index.json"], .file "".toUTF8),
    (["node_modules", "q", "index.js"], .file "".toUTF8), (["node_modules", "r"], .directory),
    (["node_modules", "r", "package.json"], .file "\x7b\"main\":\"lib\"\x7d".toUTF8),
    (["node_modules", "r", "index.wxs"], .file "".toUTF8),
    (["node_modules", "node_modules"], .directory),
    (["node_modules", "node_modules", "p.js"], .file "".toUTF8)]

/-- Seen from `r`, the packages are found by their main files, and `r` itself by its index. -/
theorem resolve?_finds_first_mains :
    let l : Loader := {}
    let base : Path := ⟨"/node_modules/r"⟩
    l.resolve? mainsTree base "p" = some ⟨"/node_modules/p/lib.js"⟩ ∧
      l.resolve? mainsTree base "../q" = some ⟨"/node_modules/q/dist/index.json"⟩ ∧
      l.resolve? mainsTree base "r" = some ⟨"/node_modules/r/index.wxs"⟩ ∧
      l.IsFoundAgain mainsTree ⟨"/node_modules/p/lib.js"⟩ ∧
      l.IsFoundAgain mainsTree ⟨"/node_modules/q/dist/index.json"⟩ ∧
      l.IsFoundAgain mainsTree ⟨"/node_modules/r/index.wxs"⟩ := by
  intro l base
  have hbase : base.isAbsolute = true := by decide
  obtain ⟨hp, hq, hr⟩ : l.resolve? mainsTree base "p" = some ⟨"/node_modules/p/lib.js"⟩ ∧
      l.resolve? mainsTree base "../q" = some ⟨"/node_modules/q/dist/index.json"⟩ ∧
      l.resolve? mainsTree base "r" = some ⟨"/node_modules/r/index.wxs"⟩ := by
    decide +kernel
  have hagain {specifier : String} {q : Path} (h : l.resolve? mainsTree base specifier = some q) :
      l.IsFoundAgain mainsTree q :=
    (resolve?_finds_first l mainsTree hbase specifier).2.2.2 q h
  exact ⟨hp, hq, hr, hagain hp, hagain hq, hagain hr⟩

end Loader

end Vendoring

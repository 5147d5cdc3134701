/-
# The inputs of a build

A build reads the files below the source directory that do not lie in the output directory.
It reads all of them, each once and in the order of their paths, exactly if the paths are
short enough to be opened. Otherwise the build ends with the first listed file whose path
is too long, or leaves out the files in a directory whose path is too long by itself.
-/

import Vendoring.Command.Run
import Vendoring.Proofs.Build.Closure
import Vendoring.Proofs.FileTree.Walk
import Vendoring.Proofs.Path.Below

namespace Vendoring

/-! ## Going through a list until something fails -/

section MapM

variable {α β ε : Type} {f : α → Except ε β}

theorem forall₂_of_mapM_eq_ok {l : List α} {l' : List β} (h : l.mapM f = .ok l') :
    List.Forall₂ (fun b a => f a = .ok b) l' l := by
  induction l generalizing l' with
  | nil =>
    obtain rfl : [] = l' := Except.ok.inj h
    exact .nil
  | cons a l ih =>
    rw [List.mapM_cons] at h
    obtain ⟨b, hfirst, h⟩ := exists_of_bind_eq_ok h
    obtain ⟨bs, hrest, h⟩ := exists_of_bind_eq_ok h
    obtain rfl : b :: bs = l' := Except.ok.inj h
    exact .cons hfirst (ih hrest)

theorem exists_mapM_eq_ok {l : List α} (h : ∀ a ∈ l, ∃ b, f a = .ok b) :
    ∃ l', l.mapM f = .ok l' := by
  induction l with
  | nil => exact ⟨[], rfl⟩
  | cons a l ih =>
    obtain ⟨hfirst, hrest⟩ := List.forall_mem_cons.1 h
    obtain ⟨b, hb⟩ := hfirst
    obtain ⟨bs, hbs⟩ := ih hrest
    exact ⟨b :: bs, by rw [List.mapM_cons, hb, hbs]; rfl⟩

end MapM

namespace Command

open FileTree

variable {t : FileTree} {src dest : Path} {inputs : List SourceFile} {f : SourceFile}
  {loc : Location}

/-! ## What is read -/

/-- The file with what it holds, at a place below the source directory that does not lie in
the output directory. -/
def IsInput (t : FileTree) (src dest : Path) (f : SourceFile) : Prop :=
  ∃ names contents, t.entry? (t.locationOf src ++ names) = some (.file contents) ∧
    ¬(pathTo src names).StartsWith dest ∧ f = ⟨pathTo src names, src, some contents⟩

/-- The inputs of a build are all there, each once and in the order of their paths, and no
two of them go to the same place. -/
structure Collects (t : FileTree) (src dest : Path) (inputs : List SourceFile) : Prop where
  mem_iff : ∀ f, f ∈ inputs ↔ IsInput t src dest f
  nodup : inputs.Nodup
  ascending : inputs.Pairwise fun f g => compare f.path g.path = .lt
  distinct : inputs.Pairwise fun f g => ¬f.relative.SameAs g.relative

/-- The paths are those of the listing that do not lie in the output directory. -/
theorem sourcePaths_eq (t : FileTree) (src dest : Path) :
    sourcePaths t src dest = (t.filesBelow src).filter fun p => ¬p.StartsWith dest := by
  rw [← files_walk, List.filter_map, List.filter_filter, sourcePaths]
  exact congrArg _ (List.filter_congr fun _ _ => Bool.and_comm _ _)

theorem mem_sourcePaths {p : Path} :
    p ∈ sourcePaths t src dest ↔ p ∈ t.filesBelow src ∧ ¬p.StartsWith dest := by
  simp [sourcePaths_eq]

/-- The paths are in order, since a walk is. -/
theorem pairwise_sourcePaths (t : FileTree) (src dest : Path) :
    (sourcePaths t src dest).Pairwise fun p q => compare p q = .lt :=
  List.pairwise_map.2 ((pairwise_walk t src).filter _)

/-- What is collected has the paths of the listing and the contents of the files. -/
theorem collectInputs_eq_ok (h : collectInputs t src dest = .ok inputs) :
    inputs.map (·.path) = sourcePaths t src dest ∧
      ∀ f ∈ inputs, ∃ contents, t.read f.path = .ok contents ∧
        f = ⟨f.path, src, some contents⟩ := by
  have hread : List.Forall₂ (fun f p => (∃ contents, t.read f.path = .ok contents ∧
      f = ⟨f.path, src, some contents⟩) ∧ f.path = p) inputs (sourcePaths t src dest) := by
    refine (forall₂_of_mapM_eq_ok h).imp fun f p hf => ?_
    cases hp : t.read p with
    | error cause => simp [hp] at hf
    | ok contents =>
      rw [hp] at hf
      obtain rfl := Except.ok.inj hf
      exact ⟨⟨contents, hp, rfl⟩, rfl⟩
  obtain ⟨hcontents, hpaths⟩ := (List.forall₂_and_left _ _).1 hread
  exact ⟨List.forall₂_eq_eq_eq ▸ List.forall₂_map_left_iff.2 hpaths, hcontents⟩

theorem exists_collectInputs (h : ∀ p ∈ sourcePaths t src dest, ∃ contents,
    t.read p = .ok contents) : ∃ inputs, collectInputs t src dest = .ok inputs := by
  refine exists_mapM_eq_ok fun p hp => ?_
  obtain ⟨contents, hread⟩ := h p hp
  exact ⟨⟨p, src, some contents⟩, by rw [hread]⟩

/-- Seen from the source directory, an input is what its path adds to that directory. -/
theorem components_relative (hstart : f.path.StartsWith f.base) (hbase : f.base.text ≠ "") :
    f.relative.components = f.path.components.drop f.base.components.length := by
  obtain ⟨rest, hrest, -, hcs, -⟩ :=
    Path.exists_below? hstart (Path.components_ne_nil_iff.2 hbase)
  rw [SourceFile.relative, hrest]
  exact hcs

/-- Files below one directory are the same if they are the same seen from there. -/
theorem sameAs_of_relative {g : SourceFile} (hf : f.path.StartsWith f.base)
    (hg : g.path.StartsWith g.base) (hbase : f.base = g.base) (htext : f.base.text ≠ "")
    (h : f.relative.SameAs g.relative) : f.path.SameAs g.path := by
  have hrest : f.relative.components = g.relative.components := h
  rw [components_relative hf htext, components_relative hg (hbase ▸ htext), ← hbase] at hrest
  obtain ⟨more, hmore⟩ := hf
  obtain ⟨more', hmore'⟩ := hbase ▸ hg
  rw [← hmore, ← hmore', List.drop_left, List.drop_left] at hrest
  show f.path.components = g.path.components
  rw [← hmore, ← hmore', hrest]

/-! ## What is collected -/

/-- The files are read from below the source directory. -/
theorem isInput_of_collectInputs (hloc : t.locate src = .ok loc)
    (h : collectInputs t src dest = .ok inputs) (hf : f ∈ inputs) : IsInput t src dest f := by
  obtain ⟨hpaths, hcontents⟩ := collectInputs_eq_ok h
  obtain ⟨contents, hread, heq⟩ := hcontents f hf
  obtain ⟨hlisted, hdest⟩ := mem_sourcePaths.1 (hpaths ▸ List.mem_map_of_mem hf)
  obtain ⟨names, contents', hentry, -, hpath⟩ := (mem_filesBelow_iff hloc).1 hlisted
  obtain ⟨place, hplace, hplaced⟩ := exists_locate_of_read hread
  rw [hpath] at hplace hdest heq
  have hnames : ∀ s ∈ names, IsName s := fun s hs => isName_of_entry? hentry s (by simp [hs])
  rw [← locationOf_of_locate hplace, locationOf_append_names names
    (pathTo_spec (text_ne_of_locate hloc) hnames).1] at hplaced
  exact ⟨names, contents, hplaced, hdest, heq⟩

theorem startsWith_of_isInput (hloc : t.locate src = .ok loc) (hf : IsInput t src dest f) :
    f.base = src ∧ f.path.StartsWith f.base := by
  obtain ⟨names, contents, hentry, -, rfl⟩ := hf
  have hnames : ∀ s ∈ names, IsName s := fun s hs => isName_of_entry? hentry s (by simp [hs])
  refine ⟨rfl, ?_⟩
  rw [Path.StartsWith, (pathTo_spec (text_ne_of_locate hloc) hnames).1]
  exact List.prefix_append _ _

/-- Whatever is collected is in order, and no two files of it are the same from the source
directory. -/
theorem pairwise_of_collectInputs (hloc : t.locate src = .ok loc)
    (h : collectInputs t src dest = .ok inputs) :
    inputs.Pairwise (fun f g => compare f.path g.path = .lt) ∧
      inputs.Pairwise fun f g => ¬f.relative.SameAs g.relative := by
  have hordered : inputs.Pairwise fun f g => compare f.path g.path = .lt := by
    have hlisted : (inputs.map (·.path)).Pairwise fun p q => compare p q = .lt :=
      (collectInputs_eq_ok h).1 ▸ pairwise_sourcePaths t src dest
    exact List.pairwise_map.1 hlisted
  refine ⟨hordered, hordered.imp_of_mem fun {f g} hf hg hlt hsame => ?_⟩
  obtain ⟨hbase, hstart⟩ := startsWith_of_isInput hloc (isInput_of_collectInputs hloc h hf)
  obtain ⟨hbase', hstart'⟩ := startsWith_of_isInput hloc (isInput_of_collectInputs hloc h hg)
  have hne : f.base.text ≠ "" := hbase ▸ text_ne_of_locate hloc
  have heq := Path.compare_eq_iff.2
    (sameAs_of_relative hstart hstart' (hbase.trans hbase'.symm) hne hsame)
  rw [hlt] at heq
  cases heq

/-- A build collects all the files below the source directory that do not lie in the output
directory, each once with its contents and in the order of the paths, exactly if the path
of each of them and the names in it are short enough to be opened. -/
theorem exists_collects_iff (hsrc : t.isDirectory src = true) :
    (∃ inputs, collectInputs t src dest = .ok inputs ∧ Collects t src dest inputs) ↔
      ∀ names contents, t.entry? (t.locationOf src ++ names) = some (.file contents) →
        ¬(pathTo src names).StartsWith dest →
          IsShort (pathTo src names) ∧ ∀ s ∈ names, s.utf8ByteSize ≤ maxNameLength := by
  obtain ⟨loc, hloc, -⟩ := exists_locate_of_isDirectory hsrc
  have hlocation := locationOf_of_locate hloc
  constructor
  · rintro ⟨inputs, hinputs, hcollects⟩ names contents hentry hdest
    have hmem := (hcollects.mem_iff _).2 ⟨names, contents, hentry, hdest, rfl⟩
    obtain ⟨held, hread, heq⟩ := (collectInputs_eq_ok hinputs).2 _ hmem
    obtain rfl : contents = held := Option.some.inj (congrArg SourceFile.contents heq)
    rw [hlocation] at hentry
    exact (read_pathTo_iff hloc hentry).1 hread
  · intro hshort
    rw [hlocation] at hshort
    obtain ⟨inputs, hinputs⟩ : ∃ inputs, collectInputs t src dest = .ok inputs := by
      refine exists_collectInputs fun p hp => ?_
      obtain ⟨hlisted, hdest⟩ := mem_sourcePaths.1 hp
      obtain ⟨names, contents, hentry, -, rfl⟩ := (mem_filesBelow_iff hloc).1 hlisted
      exact ⟨contents, (read_pathTo_iff hloc hentry).2 (hshort names contents hentry hdest)⟩
    obtain ⟨hascending, hdistinct⟩ := pairwise_of_collectInputs hloc hinputs
    refine ⟨inputs, hinputs, ?_, ?_, hascending, hdistinct⟩
    · refine fun f => ⟨isInput_of_collectInputs hloc hinputs, ?_⟩
      rintro ⟨names, contents, hentry, hdest, rfl⟩
      rw [hlocation] at hentry
      obtain ⟨hpath, hnames⟩ := hshort names contents hentry hdest
      have hlisted := mem_sourcePaths.2 ⟨pathTo_mem_filesBelow hloc hentry hpath, hdest⟩
      obtain ⟨hpaths, hcontents⟩ := collectInputs_eq_ok hinputs
      rw [← hpaths] at hlisted
      obtain ⟨f, hf, hfpath⟩ := List.mem_map.1 hlisted
      obtain ⟨held, hread, heq⟩ := hcontents f hf
      rw [hfpath] at hread heq
      rw [(read_pathTo_iff hloc hentry).2 ⟨hpath, hnames⟩] at hread
      rw [Except.ok.inj hread, ← heq]
      exact hf
    · refine hdistinct.imp fun {f g} hne heq => hne ?_
      rw [heq]
      exact Path.SameAs.refl _

/-- A source directory that holds the output of an earlier build, and a file whose name goes on
where the name of a directory beside it ends. -/
def sourceTree : FileTree :=
  FileTree.ofEntries [(["src"], .directory), (["src", "app.js"], .file "a".toUTF8),
    (["src", "out"], .directory), (["src", "out", "stale.js"], .file "x".toUTF8),
    (["src", "pages"], .directory), (["src", "pages", "b.js"], .file "b".toUTF8),
    (["src", "pages-b.js"], .file "c".toUTF8)]

theorem exists_collects_sourceTree : sourceTree.isDirectory ⟨"/src"⟩ = true ∧
    ∃ inputs, collectInputs sourceTree ⟨"/src"⟩ ⟨"/src/out"⟩ = .ok inputs ∧
      Collects sourceTree ⟨"/src"⟩ ⟨"/src/out"⟩ inputs := by
  refine ⟨by decide, (exists_collects_iff (by decide)).2 fun names contents hentry _ => ?_⟩
  have hmem : (["src"] ++ names, Entry.file contents) ∈ sourceTree.entries.toList :=
    Std.TreeMap.mem_toList_iff_getElem?_eq_some.2 hentry
  have hfiles : ∀ entry ∈ sourceTree.entries.toList,
      (pathTo ⟨"/src"⟩ entry.1.tail).text.utf8ByteSize ≤ maxPathLength ∧
        ∀ s ∈ entry.1.tail, s.utf8ByteSize ≤ maxNameLength := by
    decide
  exact hfiles _ hmem

example : (collectInputs sourceTree ⟨"/src"⟩ ⟨"/src/out"⟩).map (·.map (·.relative.text)) =
    .ok ["app.js", "pages/b.js", "pages-b.js"] := by
  decide +kernel

/-- A file that is listed under a path that is too long ends the build. -/
theorem not_collects_overlongTree : overlongTree.isDirectory (paddedDir (4076 + 1)) = true ∧
    ¬∃ inputs, collectInputs overlongTree (paddedDir (4076 + 1)) ⟨"/out"⟩ = .ok inputs ∧
      Collects overlongTree (paddedDir (4076 + 1)) ⟨"/out"⟩ inputs := by
  -- the number stays a variable, so that no step writes out the padded path
  obtain ⟨k, hk⟩ : ∃ k, k = 4076 := ⟨_, rfl⟩
  rw [← hk]
  have hnested := isNested_overlongTree
  have hloc := hnested.locate_paddedDir hk.le
  have hdir : overlongTree.isDirectory (paddedDir (k + 1)) = true := by
    have hentry : overlongTree.entry? ["node_modules", "p", "s", "u"] = some .directory := by
      decide
    simp only [isDirectory, find?, hloc, hentry]
  refine ⟨hdir, ?_⟩
  rintro ⟨inputs, hinputs, -⟩
  have hname : IsName "a.js" := hnested.isName
  have hout : ¬(paddedDir (k + 1) / "a.js").StartsWith ⟨"/out"⟩ := by
    rw [Path.StartsWith, hname.components_div, paddedDir_sameAs k]
    decide
  have hpaths : sourcePaths overlongTree (paddedDir (k + 1)) ⟨"/out"⟩ =
      [paddedDir (k + 1) / "a.js"] := by
    rw [sourcePaths_eq, hnested.filesBelow_paddedDir hk.le]
    exact List.filter_cons_of_pos (decide_eq_true hout)
  obtain ⟨hsame, hread⟩ := collectInputs_eq_ok hinputs
  rw [hpaths] at hsame
  obtain ⟨f, hf, hpath⟩ := List.map_eq_singleton_iff.1 hsame
  obtain ⟨contents, hcontents, -⟩ := hread f (by rw [hf]; exact List.mem_singleton_self f)
  obtain ⟨loc, hplace, -⟩ := exists_locate_of_read (hpath ▸ hcontents)
  rw [locate, refusal?_paddedDir_div hname hk.ge] at hplace
  cases hplace

end Command

end Vendoring

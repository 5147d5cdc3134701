/-
# Files taken over under an overlong path

An entry of the full extraction may lead to a directory under a path with so much
padding that the directory can just be looked up, and the paths of the files in it are
too long. Such a file is taken over, since its normal form can be read. But it waits
by the path that it was listed under, and its walk finds nothing there.
-/

import Vendoring.FileTree.Edit
import Vendoring.Proofs.Build.Run
import Vendoring.Proofs.Build.Steps
import Vendoring.Proofs.Build.Tidy
import Vendoring.Proofs.Resolver.Spelling

namespace Vendoring

open Text

namespace Discovery

variable {t : FileTree} {d : Discovery}

/-- The walk of a file that cannot be read finds nothing, if nothing is remembered. -/
theorem walk_of_read_eq_error {path : Path} {cause : FileError}
    (hread : t.read path = .error cause) (hreferences : d.session.references[path]? = none)
    (hcomponents : d.session.components[path]? = none) :
    ∃ d', d.walk t path none = .ok d' ∧ d'.pending = d.pending ∧ d'.outputs = d.outputs := by
  have himports : ∃ d', d.extractImports t path none = .ok d' ∧ d'.pending = d.pending ∧
      d'.outputs = d.outputs := by
    refine extractImports_of_nil hreferences ?_
    rw [Resolver.referencesOf, show (d.session.resolver t).tree = t from rfl, hread]
    split <;> rfl
  have hwalked : ∃ d', d.extractComponents t path none = .ok d' ∧ d'.pending = d.pending ∧
      d'.outputs = d.outputs := by
    refine extractComponents_of_nil hcomponents ?_
    simp [Resolver.componentsOf, Resolver.componentsIn, FileTree.objectD, FileTree.object?,
      FileTree.readText, Session.resolver, hread, componentDeclarations, Json.get?]
  unfold walk
  split
  · exact himports
  · exact himports
  · exact hwalked
  · exact ⟨d, rfl, rfl, rfl⟩

/-- An entry that lists one file whose listed path cannot be read takes over that file
and nothing else. -/
theorem ofEntry_of_read_eq_error {settings : Settings} {entry : String} {package : Package}
    {dir file : Path} {cause : FileError} {place : Placement} {contents : ByteArray}
    (hdir : extractedDir? t (.start t settings) entry = some (package, dir))
    (hfiles : t.filesBelow dir = [file]) (hread : t.read file = .error cause)
    (hplace : (Session.start t settings).planner.place? file package.name false = some place)
    (hcontents : t.read place.source = .ok contents) :
    ∃ d, ofEntry t (.start t settings) entry = .ok d ∧ d.outputs =
      [{ source := place.source
         relative := place.relative
         contents := some contents
         origin := .fullExtract place }] := by
  obtain ⟨injected, hinjected⟩ : ∃ injected, inject t package.name false .fullExtract
      { session := .start t settings } file = .ok injected := by
    refine exists_inject fun p hp => ?_
    obtain rfl := Option.some.inj (hplace.symm.trans hp)
    exact ⟨contents, hcontents⟩
  have houtcome : (injected.pending = [] ∨ injected.pending = [file]) ∧
      injected.session.references = ∅ ∧ injected.session.components = ∅ ∧ injected.outputs =
        [{ source := place.source
           relative := place.relative
           contents := some contents
           origin := .fullExtract place }] := by
    cases inject_eq_ok hinjected with
    | known hclaimed => simp [Session.start] at hclaimed
    | unplaced _ hnone => exact absurd (hplace.symm.trans hnone) (by simp)
    | @placed p bytes hnew hplaced hbytes =>
      obtain rfl := Option.some.inj (hplace.symm.trans hplaced)
      obtain rfl := Except.ok.inj (hcontents.symm.trans hbytes)
      refine ⟨?_, rfl, rfl, rfl⟩
      split
      · exact .inr rfl
      · exact .inl rfl
  obtain ⟨hpending, hreferences, hcomponents, houtputs⟩ := houtcome
  obtain ⟨drained, hdrained, hkept⟩ :
      ∃ drained, injected.drain t = .ok drained ∧ drained.outputs = injected.outputs := by
    rcases hpending with hnil | hone
    · exact ⟨injected, drainUpTo_of_nil hnil, rfl⟩
    · obtain ⟨walked, hwalk, hempty, hsame⟩ := walk_of_read_eq_error
        (d := { injected with pending := [] }) hread (by simp [hreferences]) (by simp [hcomponents])
      exact ⟨walked, drain_of_walk hone hwalk hempty, hsame⟩
  obtain ⟨d, hd, hdOutputs⟩ := ofEntry_of_drain hdir
    (by rw [hfiles, List.foldlM_cons, bind_of_eq_ok hinjected]; rfl) hdrained
  exact ⟨d, hd, (hdOutputs.trans hkept).trans houtputs⟩

end Discovery

/-! ## Padded paths -/

/-- Two names with slashes between them. -/
def padded (k : Nat) : String := String.ofList ('s' :: (List.replicate k '/' ++ ['u']))

theorem toList_padded (k : Nat) : (padded k).toList = 's' :: (List.replicate k '/' ++ ['u']) := by
  simp [padded]

theorem splitOn_padded (k : Nat) :
    splitOn '/' (padded (k + 1)).toList = ['s'] :: (List.replicate k [] ++ [['u']]) := by
  have hslashes (n : Nat) : splitOn '/' (List.replicate n '/' ++ ['u']) =
      List.replicate n [] ++ [['u']] := by
    induction n with
    | zero => decide
    | succ n ih => simp [List.replicate_succ, splitOn, ih]
  rw [toList_padded, List.replicate_succ, List.cons_append]
  have hfirst : '/' ∉ ['s'] := by decide
  exact (splitOn_append_cons hfirst _).trans (by rw [hslashes])

theorem clean_padded (k : Nat) :
    Specifier.clean ("p/" ++ padded k) = 'p' :: '/' :: (padded k).toList := by
  simp [Specifier.clean, trim, dropEndWhile, isBlank, padded]

theorem parse_padded (k : Nat) :
    Specifier.parse ("p/" ++ padded k) = .plain "p" (some (padded k)) := by
  have hstep : Specifier.isStep ('p' :: '/' :: (padded k).toList) = false := by
    simp [Specifier.isStep, List.isPrefixOf]
  have hcut : Specifier.cutAtSlash ('p' :: '/' :: (padded k).toList) =
      (['p'], some (padded k).toList) := by
    simp [Specifier.cutAtSlash, List.span_eq_takeWhile_dropWhile]
  have hsub : Specifier.subpathOf ((padded k).toList.dropWhile (· = '/')) = some (padded k) := by
    simp [Specifier.subpathOf, dropEndWhile, padded]
  simp [Specifier.parse, clean_padded, hstep, Specifier.ofPackageText, hcut, hsub]

theorem utf8ByteSize_padded (k : Nat) : (padded k).utf8ByteSize = k + 2 := by
  have hslashes (n : Nat) : (String.ofList (List.replicate n '/')).utf8ByteSize = n := by
    induction n with
    | zero => decide
    | succ n ih =>
      rw [List.replicate_succ', String.ofList_append, String.utf8ByteSize_append, ih]
      rfl
  have hsplit : padded k = "s" ++ (String.ofList (List.replicate k '/') ++ "u") := by
    apply String.ext_iff.2
    simp [padded]
  rw [hsplit, String.utf8ByteSize_append, String.utf8ByteSize_append, hslashes,
    show "s".utf8ByteSize = 1 from rfl, show "u".utf8ByteSize = 1 from rfl]
  omega

/-- The directory of a package that a padded path leads to. -/
def paddedDir (k : Nat) : Path := (⟨"/node_modules/p"⟩ : Path) / padded k

theorem isAbsolute_padded (k : Nat) : (⟨padded k⟩ : Path).isAbsolute = false := by
  simp [Path.isAbsolute, toList_padded]

theorem text_paddedDir (k : Nat) : (paddedDir k).text = "/node_modules/p/" ++ padded k := by
  show (Path.join ⟨"/node_modules/p"⟩ ⟨padded k⟩).text = _
  rw [Path.join, isAbsolute_padded, if_neg (by decide), if_neg (by decide)]
  show "/node_modules/p" ++ "/" ++ padded k = _
  congr 1

theorem segments_paddedDir (k : Nat) : (paddedDir (k + 1)).segments =
    [] :: (["node_modules".toList, ['p'], ['s']] ++ List.replicate k [] ++ [['u']]) := by
  rw [Path.segments, text_paddedDir, String.toList_append,
    show "/node_modules/p/".toList = "/node_modules/p".toList ++ ['/'] from rfl,
    List.append_assoc, List.singleton_append]
  rw [splitOn_append_sep, splitOn_padded]
  have : splitOn '/' "/node_modules/p".toList = [[], "node_modules".toList, ['p']] := by decide
  rw [this]
  simp

theorem paddedDir_sameAs (k : Nat) : (paddedDir (k + 1)).SameAs ⟨"/node_modules/p/s/u"⟩ := by
  have hpad : Path.stepsOf (List.replicate k []) = [] := by
    simp [Path.stepsOf, Path.isPadding]
  show (paddedDir (k + 1)).components = _
  rw [show paddedDir (k + 1) = Path.join ⟨"/node_modules/p"⟩ ⟨padded (k + 1)⟩ from rfl,
    Path.components_join (isAbsolute_padded _) (by decide), Path.segments, splitOn_padded,
    Path.stepsOf_cons, Path.stepsOf_append, hpad]
  decide

theorem utf8ByteSize_paddedDir (k : Nat) : (paddedDir (k + 1)).text.utf8ByteSize = k + 19 := by
  rw [text_paddedDir, String.utf8ByteSize_append, utf8ByteSize_padded,
    show "/node_modules/p/".utf8ByteSize = 16 from rfl]
  omega

theorem isAbsolute_paddedDir (k : Nat) : (paddedDir (k + 1)).isAbsolute = true := by
  rw [Path.isAbsolute_iff (segments_paddedDir k)]
  simp

/-- The directory of the nested file under its plain path. -/
def nestedDir : Path := ⟨"/node_modules/p/s/u"⟩

/-- A file in the padded directory is listed under a path that is too long. -/
theorem refusal?_paddedDir_div {name : String} (hname : IsName name) (hk : 4076 ≤ k) :
    FileTree.refusal? (paddedDir (k + 1) / name) = some .nameTooLong := by
  have hlast : (paddedDir (k + 1)).text.toList.getLast? ≠ some '/' := by
    rw [text_paddedDir, String.toList_append, toList_padded, ← List.cons_append,
      ← List.append_assoc, List.getLast?_concat]
    simp
  have htext : (paddedDir (k + 1) / name).text = (paddedDir (k + 1)).text ++ "/" ++ name := by
    show (Path.join (paddedDir (k + 1)) ⟨name⟩).text = _
    have hne : (paddedDir (k + 1)).text ≠ "" := by
      rw [← Path.components_ne_nil_iff, paddedDir_sameAs k]
      decide
    rw [Path.join, if_neg (by simp [hne, Path.isAbsolute_of_name hname.no_slash]), if_neg hlast]
  have hsize : (paddedDir (k + 1) / name).text.utf8ByteSize = k + 20 + name.utf8ByteSize := by
    rw [htext, String.utf8ByteSize_append, String.utf8ByteSize_append, utf8ByteSize_paddedDir,
      show "/".utf8ByteSize = 1 from rfl]
  have hne : (paddedDir (k + 1) / name).text ≠ "" := by
    intro hnil
    rw [hnil, show "".utf8ByteSize = 0 from rfl] at hsize
    omega
  have hnul : '\x00' ∉ (paddedDir (k + 1) / name).text.toList := by
    rw [htext, text_paddedDir, String.toList_append, String.toList_append, String.toList_append,
      toList_padded]
    simp [hname.2.2.2.2]
  rw [FileTree.refusal?, if_neg hne, if_neg hnul, hsize, FileTree.maxPathLength, if_pos (by omega)]

/-- A tree with a package that holds its entry and one more file, two directories down. -/
structure FileTree.IsNested (t : FileTree) (name : String) (contents : ByteArray) : Prop where
  toList : t.entries.toList = [([], .directory), (["node_modules"], .directory),
    (["node_modules", "p"], .directory), (["node_modules", "p", "index.js"], .file "".toUTF8),
    (["node_modules", "p", "s"], .directory), (["node_modules", "p", "s", "u"], .directory),
    (["node_modules", "p", "s", "u", name], .file contents)]
  locate : t.locate nestedDir = .ok ["node_modules", "p", "s", "u"]
  read : t.read (nestedDir / name) = .ok contents
  get? : (Session.start t (.forProject ⟨"/"⟩)).catalog.get? "p" = some
    { name := "p", root := ⟨"/node_modules/p"⟩, mainEntry := some ⟨"index.js"⟩ }

/-- The directory that holds the nested file is taken over under a padded path. -/
def overlongSettings (k : Nat) : Settings :=
  { Settings.forProject ⟨"/"⟩ with fullExtract := ["p/" ++ padded (k + 1)] }

namespace FileTree.IsNested

variable {t : FileTree} {name : String} {contents : ByteArray} {k : Nat}

theorem entry? (h : t.IsNested name contents) :
    t.entry? ["node_modules", "p", "s", "u", name] = some (.file contents) := by
  refine Std.TreeMap.mem_toList_iff_getElem?_eq_some.1 ?_
  rw [h.toList]
  simp

theorem isName (h : t.IsNested name contents) : IsName name :=
  isName_of_entry? h.entry? name (by simp)

theorem locate_paddedDir (h : t.IsNested name contents) (hk : k ≤ 4076) :
    t.locate (paddedDir (k + 1)) = .ok ["node_modules", "p", "s", "u"] := by
  refine locate_of_sameAs (paddedDir_sameAs k) (isAbsolute_paddedDir k) (by decide)
    (segments_paddedDir k) (by decide) ?_ h.locate
  refine refusal?_eq_none ?_ ?_ ?_
  · intro htext
    have hsize := utf8ByteSize_paddedDir k
    rw [htext] at hsize
    simp at hsize
  · rw [text_paddedDir, String.toList_append, toList_padded]
    simp
  · rw [IsShort, utf8ByteSize_paddedDir, maxPathLength]
    omega

theorem filesBelow_paddedDir (h : t.IsNested name contents) (hk : k ≤ 4076) :
    t.filesBelow (paddedDir (k + 1)) = [paddedDir (k + 1) / name] := by
  have hloc := h.locate_paddedDir hk
  have hshort : refusal? (paddedDir (k + 1)) = none := (locate_eq_ok hloc).1
  simp [filesBelow, hloc, h.toList, locationBelow?, pathTo, hshort]

theorem extractedDir?_eq (h : t.IsNested name contents) (hk : k ≤ 4076) :
    Discovery.extractedDir? t (.start t (overlongSettings k)) ("p/" ++ padded (k + 1)) = some
      ({ name := "p", root := ⟨"/node_modules/p"⟩, mainEntry := some ⟨"index.js"⟩ },
        paddedDir (k + 1)) := by
  have hget : (Session.start t (overlongSettings k)).catalog.get? "p" = some
      { name := "p", root := ⟨"/node_modules/p"⟩, mainEntry := some ⟨"index.js"⟩ } := h.get?
  have hentry : t.entry? ["node_modules", "p", "s", "u"] = some .directory := by
    refine Std.TreeMap.mem_toList_iff_getElem?_eq_some.1 ?_
    rw [h.toList]
    simp
  have hdir : t.isDirectory (paddedDir (k + 1)) = true := by
    simp [isDirectory, find?, h.locate_paddedDir hk, hentry]
  simp only [Discovery.extractedDir?, parse_padded, Specifier.packageName?, Specifier.subpath?,
    hget, Option.bind_eq_bind, Option.bind_some, Resolver.inside]
  exact if_pos hdir

theorem isTidy (h : t.IsNested name contents) (hname : name ≠ packageTreeName)
    (hcontents : ((decode? contents).bind Json.parseObject?).all (fun json =>
      (Manifest.ofJson json).alternateDirname?.all fun dirname =>
        ['.', '.'] ∉ splitOn '/' dirname.toList) = true) : IsTidy t (overlongSettings k) := by
  have htree : (overlongSettings k).packageTree = ⟨"/node_modules"⟩ := rfl
  refine .of_entries ?_ ?_ ?_ ?_ ?_
  · rw [htree]
    decide
  · rw [htree]
    decide
  · rw [htree]
    decide
  · intro entry hentry
    rw [List.mem_singleton.1 hentry, clean_padded, show 'p' :: '/' :: (padded (k + 1)).toList =
      ['p'] ++ '/' :: (padded (k + 1)).toList from rfl, splitOn_append_sep, splitOn_padded]
    have hup : ∀ n, ['.', '.'] ∉ List.replicate n ([] : List Char) := by simp
    simp [hup, splitOn]
  · have hempty : ((decode? ByteArray.empty).bind Json.parseObject?).isNone = true := by
      decide
    rw [h.toList]
    simp only [List.mem_cons, List.not_mem_nil, or_false]
    rintro x (rfl | rfl | rfl | rfl | rfl | rfl | rfl) bytes hbytes
    all_goals simp at hbytes
    · subst hbytes
      rw [Option.isNone_iff_eq_none.1 hempty]
      decide
    · subst hbytes
      exact ⟨by simpa using hname, hcontents⟩

/-- The nested file is taken over, and nothing that it refers to. -/
theorem ofEntry_overlong (h : t.IsNested name contents) (hname : name ≠ packageTreeName)
    (hcontents : ((decode? contents).bind Json.parseObject?).all (fun json =>
      (Manifest.ofJson json).alternateDirname?.all fun dirname =>
        ['.', '.'] ∉ splitOn '/' dirname.toList) = true) (hk : k = 4076) :
    ∃ d f, Discovery.ofEntry t (.start t (overlongSettings k)) ("p/" ++ padded (k + 1)) = .ok d ∧
      d.outputs = [f] ∧ f.source = nestedDir / name ∧ ∃ place, f.origin = .fullExtract place := by
  have htidy : IsTidy t (overlongSettings k) := h.isTidy hname hcontents
  have hsame : (paddedDir (k + 1) / name).SameAs (nestedDir / name) := (paddedDir_sameAs k).div name
  have hrooted : (nestedDir / name).IsRooted :=
    Path.IsRooted.join_name ⟨["node_modules", "p", "s", "u"], by decide⟩ h.isName
  have hplain : (nestedDir / name).IsPlain :=
    Path.IsPlain.join_name (by decide) (by decide) h.isName.no_slash h.isName.not_padding
  have hholds : t.HoldsFile (paddedDir (k + 1) / name) := by
    have hdir : (paddedDir (k + 1)).IsRooted :=
      (paddedDir_sameAs k).symm.isRooted ⟨["node_modules", "p", "s", "u"], by decide⟩
    refine holdsFile_of_mem_filesBelow hdir ?_
    rw [h.filesBelow_paddedDir hk.le]
    simp
  have htree : (paddedDir (k + 1) / name).HasTree := by
    refine hsame.symm.hasTree (Path.HasTree.join (by decide) ?_)
    exact Path.isAbsolute_of_name h.isName.no_slash
  obtain ⟨place, hplace⟩ := Planner.exists_place? (r := (Session.start t (overlongSettings k)).planner)
    (Catalog.isSurvey_survey t _ _) htidy.isRooted htidy.hasTree htidy.noFile hholds htree "p" false
  have hsource : place.source = nestedDir / name := by
    rw [Planner.source_of_place? hplace, hsame.normalize_eq, hrooted.normalize_eq hplain]
  have hread : t.read (paddedDir (k + 1) / name) = .error .nameTooLong := by
    rw [FileTree.read, FileTree.locate, refusal?_paddedDir_div h.isName hk.ge]
  obtain ⟨d, hd, houtputs⟩ := Discovery.ofEntry_of_read_eq_error (h.extractedDir?_eq hk.le)
    (h.filesBelow_paddedDir hk.le) hread hplace (by rw [hsource]; exact h.read)
  exact ⟨d, _, hd, houtputs, hsource, place, rfl⟩

/-- A build without inputs emits the nested file and no other. -/
theorem build_overlong (h : t.IsNested name contents) (hname : name ≠ packageTreeName)
    (hcontents : ((decode? contents).bind Json.parseObject?).all (fun json =>
      (Manifest.ofJson json).alternateDirname?.all fun dirname =>
        ['.', '.'] ∉ splitOn '/' dirname.toList) = true) :
    ∃ out f, ((Session.start t (overlongSettings 4076)).build t []).1 = .ok out ∧
      f ∈ out.files ∧ (∃ place, f.origin = .fullExtract place) ∧
      ∀ g ∈ out.files, g.source = nestedDir / name := by
  obtain ⟨d, f, hentry, houtputs, hsource, place, horigin⟩ := h.ofEntry_overlong hname hcontents rfl
  have hextracts : Extracts t (Session.start t (overlongSettings 4076)).settings.fullExtract
      (.start t (overlongSettings 4076)) (d.outputs ++ []) d.session :=
    .cons hentry (.nil _)
  obtain ⟨out, hout⟩ := Session.exists_build hextracts (.nil _)
  obtain ⟨extracted, s₁, needed, s₂, hextracts', hdiscovers, hgathers⟩ :=
    Session.exists_gathers hout
  obtain ⟨rfl, rfl⟩ := hextracts.unique hextracts'
  cases hdiscovers
  obtain ⟨g, hg, -, -, hgOrigin⟩ := hgathers.exists_mem_files (f := f) (by simp [houtputs])
  refine ⟨out, g, hout, hg, ⟨place, hgOrigin.trans horigin⟩, fun g hg => ?_⟩
  rcases hgathers.of_mem_files hg with ⟨input, hinput, -⟩ | ⟨f', hf', hf'Source, -⟩
  · simp at hinput
  · obtain rfl : f' = f := by simpa [houtputs] using hf'
    exact hf'Source.symm.trans hsource

end FileTree.IsNested

end Vendoring

/-
# Looking up paths in a file tree

A path that leads anywhere is short, so there are fewer such paths than the walks
along paths allow for. The look-up of an absolute path passes over padding: it
ends where the plain spelling ends, unless the longer spelling is refused. Files
that are found by listing a directory lie at locations below it.
-/

import Mathlib.Data.List.Perm.Subperm
import Mathlib.Data.Nat.Digits.Lemmas
import Vendoring.FileTree.Basic
import Vendoring.Proofs.Path.Ancestors

namespace Vendoring

open Text

/-! ## Counting short texts -/

/-- The bytes of a text as the digits of a number, with a leading digit that keeps
the zeros at the end. -/
def textCode (s : String) : Nat :=
  Nat.ofDigits UInt8.size (s.toByteArray.data.toList.map UInt8.toNat ++ [1])

theorem digits_textCode (s : String) :
    Nat.digits UInt8.size (textCode s) = s.toByteArray.data.toList.map UInt8.toNat ++ [1] := by
  refine Nat.digits_ofDigits _ (by decide) _ ?_ ?_
  · intro d hd
    rcases List.mem_append.1 hd with hd | hd
    · obtain ⟨b, -, rfl⟩ := List.mem_map.1 hd
      exact b.toNat_lt
    · rw [List.mem_singleton.1 hd]
      decide
  · simp

theorem textCode_injective : Function.Injective textCode := by
  intro s u h
  have hdigits := congrArg (Nat.digits UInt8.size) h
  rw [digits_textCode, digits_textCode, List.append_cancel_right_eq] at hdigits
  have hbytes := List.map_injective_iff.2 (fun a b h => UInt8.toNat_inj.1 h) hdigits
  exact String.toByteArray_inj.1 (ByteArray.ext (Array.toList_inj.1 hbytes))

theorem textCode_lt {s : String} {n : Nat} (h : s.utf8ByteSize ≤ n) :
    textCode s < UInt8.size ^ (n + 1) := by
  have hlt : textCode s < UInt8.size ^ (s.utf8ByteSize + 1) := by
    have hdigit := Nat.ofDigits_lt_base_pow_length (b := UInt8.size)
      (l := s.toByteArray.data.toList.map UInt8.toNat ++ [1]) (by decide) fun d hd => by
        rcases List.mem_append.1 hd with hd | hd
        · obtain ⟨b, -, rfl⟩ := List.mem_map.1 hd
          exact b.toNat_lt
        · rw [List.mem_singleton.1 hd]
          decide
    simpa [textCode] using hdigit
  exact hlt.trans_le (Nat.pow_le_pow_right (by decide) (by omega))

/-- There are at most as many texts of a number of bytes as there are numbers of
one more digit. -/
theorem length_le_of_utf8ByteSize_le {l : List String} (hl : l.Nodup) {n : Nat}
    (h : ∀ s ∈ l, s.utf8ByteSize ≤ n) : l.length ≤ Nat.pow UInt8.size (n + 1) := by
  have hcodes : (l.map textCode).Nodup := hl.map textCode_injective
  have hsub : l.map textCode ⊆ List.range (UInt8.size ^ (n + 1)) := by
    intro c hc
    obtain ⟨s, hs, rfl⟩ := List.mem_map.1 hc
    exact List.mem_range.2 (textCode_lt (h s hs))
  have hle := (hcodes.subperm hsub).length_le
  rwa [List.length_map, List.length_range] at hle

namespace FileTree

variable (t : FileTree) {p q : Path}

/-- The path is short enough to lead somewhere. -/
def IsShort (p : Path) : Prop := p.text.utf8ByteSize ≤ maxPathLength

theorem isShort_of_refusal?_eq_none (h : refusal? p = none) :
    p.text ≠ "" ∧ '\x00' ∉ p.text.toList ∧ IsShort p := by
  unfold refusal? at h
  by_cases h₁ : p.text = ""
  · simp [h₁] at h
  · by_cases h₂ : '\x00' ∈ p.text.toList
    · simp [h₁, h₂] at h
    · by_cases h₃ : p.text.utf8ByteSize > maxPathLength
      · simp [h₁, h₂, h₃] at h
      · exact ⟨h₁, h₂, Nat.le_of_not_gt h₃⟩

theorem refusal?_eq_none (htext : p.text ≠ "") (hnul : '\x00' ∉ p.text.toList)
    (hshort : IsShort p) : refusal? p = none := by
  have hle : ¬p.text.utf8ByteSize > maxPathLength := Nat.not_lt.2 hshort
  simp [refusal?, htext, hnul, hle]

variable {t}

theorem locate_eq_ok {loc : Location} (h : t.locate p = .ok loc) :
    refusal? p = none ∧ p.segments.foldlM t.step (t.startOf p) = .ok loc := by
  unfold locate at h
  split at h
  · simp at h
  · exact ⟨by assumption, h⟩

theorem locate_of_refusal? (h : refusal? p = none) :
    t.locate p = p.segments.foldlM t.step (t.startOf p) := by
  simp [locate, h]

theorem isShort_of_locate {loc : Location} (h : t.locate p = .ok loc) : IsShort p :=
  (isShort_of_refusal?_eq_none (locate_eq_ok h).1).2.2

theorem exists_locate_of_isFile (h : t.isFile p = true) :
    ∃ loc contents, t.locate p = .ok loc ∧ t.entry? loc = some (.file contents) := by
  unfold isFile find? at h
  cases hloc : t.locate p with
  | error cause => simp [hloc] at h
  | ok loc =>
    match hentry : t.entry? loc with
    | none => simp [hloc, hentry] at h
    | some .directory => simp [hloc, hentry] at h
    | some (.file contents) => exact ⟨loc, contents, rfl, hentry⟩

theorem exists_locate_of_isDirectory (h : t.isDirectory p = true) :
    ∃ loc, t.locate p = .ok loc ∧ t.entry? loc = some .directory := by
  unfold isDirectory find? at h
  cases hloc : t.locate p with
  | error cause => simp [hloc] at h
  | ok loc =>
    match hentry : t.entry? loc with
    | none => simp [hloc, hentry] at h
    | some .directory => exact ⟨loc, rfl, hentry⟩
    | some (.file contents) => simp [hloc, hentry] at h

theorem exists_locate_of_read {contents : ByteArray} (h : t.read p = .ok contents) :
    ∃ loc, t.locate p = .ok loc ∧ t.entry? loc = some (.file contents) := by
  unfold read at h
  cases hloc : t.locate p with
  | error cause => simp [hloc] at h
  | ok loc =>
    match hentry : t.entry? loc with
    | none => simp [hloc, hentry] at h
    | some .directory => simp [hloc, hentry] at h
    | some (.file _) =>
      simp only [hloc, hentry, Except.ok.injEq] at h
      exact ⟨loc, rfl, h ▸ hentry⟩

theorem read_of_locate {loc : Location} {contents : ByteArray} (h : t.locate p = .ok loc)
    (hentry : t.entry? loc = some (.file contents)) : t.read p = .ok contents := by
  simp [read, h, hentry]

/-- Only a file can be read. -/
theorem isFile_of_read {contents : ByteArray} (h : t.read p = .ok contents) :
    t.isFile p = true := by
  obtain ⟨loc, hloc, hentry⟩ := exists_locate_of_read h
  simp [isFile, find?, hloc, hentry]

theorem isShort_of_isFile (h : t.isFile p = true) : IsShort p := by
  obtain ⟨loc, contents, hloc, -⟩ := exists_locate_of_isFile h
  exact isShort_of_locate hloc

theorem isShort_of_isDirectory (h : t.isDirectory p = true) : IsShort p := by
  obtain ⟨loc, hloc, -⟩ := exists_locate_of_isDirectory h
  exact isShort_of_locate hloc

theorem isShort_of_read {contents : ByteArray} (h : t.read p = .ok contents) : IsShort p := by
  obtain ⟨loc, hloc, -⟩ := exists_locate_of_read h
  exact isShort_of_locate hloc

theorem text_ne_of_locate {loc : Location} (h : t.locate p = .ok loc) : p.text ≠ "" :=
  (isShort_of_refusal?_eq_none (locate_eq_ok h).1).1

/-- Short paths of which no two are the same are fewer than a walk allows for. -/
theorem length_le_pathCount {l : List Path} (hl : l.Pairwise fun p q => ¬p.SameAs q)
    (h : ∀ p ∈ l, IsShort p) : l.length ≤ pathCount := by
  have htexts : (l.map Path.text).Nodup := by
    refine List.pairwise_map.2 (hl.imp fun {p q} hpq htext => hpq ?_)
    obtain ⟨text⟩ := p
    obtain ⟨text'⟩ := q
    obtain rfl : text = text' := htext
    rfl
  have hle := length_le_of_utf8ByteSize_le htexts (n := maxPathLength) fun s hs => by
    obtain ⟨p, hp, rfl⟩ := List.mem_map.1 hs
    exact h p hp
  unfold pathCount
  exact (List.length_map Path.text).symm.trans_le hle

/-! ## Padding on the way -/

theorem step_of_isPadding {loc : Location} {s : List Char} (hs : Path.isPadding s = true)
    (hloc : t.entry? loc = some .directory) : t.step loc s = .ok loc := by
  simp [step, hs, hloc]

theorem entry?_of_step {loc loc' : Location} {s : List Char} (h : t.step loc s = .ok loc') :
    t.entry? loc = some .directory := by
  unfold step at h
  match hentry : t.entry? loc with
  | none => simp [hentry] at h
  | some .directory => rfl
  | some (.file _) => simp [hentry] at h

/-- A path leads on from where its first piece leads. -/
theorem foldlM_step_cons {s : List Char} {segments : List (List Char)} {loc loc' : Location} :
    (s :: segments).foldlM t.step loc = .ok loc' ↔
      ∃ next, t.step loc s = .ok next ∧ segments.foldlM t.step next = .ok loc' := by
  rw [List.foldlM_cons]
  cases t.step loc s with
  | error cause => simp [bind, Except.bind]
  | ok next => simp [bind, Except.bind]

/-- Padding in front of a piece that leads on changes nothing, since that piece
can be followed in a directory only. -/
theorem foldlM_step_of_filter {segments : List (List Char)} {last : List Char}
    {loc loc' : Location} (hlast : Path.isPadding last = false)
    (h : ((segments ++ [last]).filter fun s => !Path.isPadding s).foldlM t.step loc = .ok loc') :
    (segments ++ [last]).foldlM t.step loc = .ok loc' := by
  induction segments generalizing loc with
  | nil => simpa [hlast] using h
  | cons s rest ih =>
    by_cases hs : Path.isPadding s = true
    · have hrest : ((rest ++ [last]).filter fun s => !Path.isPadding s).foldlM t.step loc =
          .ok loc' := by simpa [hs] using h
      have hdir : t.entry? loc = some .directory := by
        cases hkept : (rest ++ [last]).filter fun s => !Path.isPadding s with
        | nil => simp [hlast] at hkept
        | cons first more =>
          rw [hkept] at hrest
          obtain ⟨next, hstep, -⟩ := foldlM_step_cons.1 hrest
          exact entry?_of_step hstep
      rw [List.cons_append, List.foldlM_cons, step_of_isPadding hs hdir]
      exact ih hrest
    · rw [List.cons_append, List.filter_cons_of_pos (by simpa using hs)] at h
      obtain ⟨next, hstep, hrest⟩ := foldlM_step_cons.1 h
      rw [List.cons_append]
      exact foldlM_step_cons.2 ⟨next, hstep, ih hrest⟩

/-- An absolute path that is not refused and ends in a piece that leads on leads
where the plain path of its components leads. -/
theorem locate_of_sameAs (hsame : p.SameAs q) (hp : p.isAbsolute = true) (hq : q.IsPlain)
    {first last : List Char} {segments : List (List Char)}
    (hsegs : p.segments = first :: (segments ++ [last])) (hlast : Path.isPadding last = false)
    (hrefusal : refusal? p = none) {loc : Location} (h : t.locate q = .ok loc) :
    t.locate p = .ok loc := by
  have hfirst : first = [] := ((Path.isAbsolute_iff hsegs).1 hp).1
  have hqabs : q.isAbsolute = true := by
    rw [Path.isAbsolute_iff_head] at hp ⊢
    rw [← hsame, hp]
  have hne : p.text ≠ "" := (isShort_of_refusal?_eq_none hrefusal).1
  have hcs := Path.components_of_text_ne hsegs hne
  -- the plain path has the pieces of the other one without the padding
  have hqsegs : q.segments = [] :: (segments ++ [last]).filter fun s => !Path.isPadding s := by
    have hspelled : Path.IsSpelled (Path.leadOf first :: Path.stepsOf (segments ++ [last])) := by
      rw [← hcs]
      exact p.isSpelled_components
    have hspell : Path.ofComponents (Path.leadOf first :: Path.stepsOf (segments ++ [last])) = q := by
      rw [← hcs, hsame, hq]
    have hroot : q ≠ ⟨"/"⟩ := by
      intro hroot
      have := (Path.ofComponents_eq_root hspelled (hspell.trans hroot)).2
      simp [Path.stepsOf_cons, hlast] at this
    have hsegments := Path.segments_ofComponents hspelled (by rwa [hspell])
    rw [hspell, hfirst] at hsegments
    rw [hsegments, Path.stepsOf, List.map_map]
    congr 1
    exact List.map_id'' (fun s => Component.text_ofSegment s) _
  obtain ⟨-, hfold⟩ := locate_eq_ok h
  have hroot : t.entry? [] = some .directory := t.root_eq
  rw [hqsegs, List.foldlM_cons, startOf, if_pos hqabs,
    step_of_isPadding (by decide) hroot] at hfold
  rw [locate_of_refusal? hrefusal, hsegs, hfirst, List.foldlM_cons, startOf, if_pos hp,
    step_of_isPadding (by decide) hroot]
  exact foldlM_step_of_filter hlast hfold

/-! ## Listing a directory -/

end FileTree

theorem IsName.no_slash {s : String} (h : IsName s) : '/' ∉ s.toList := h.2.2.2.1

theorem IsName.not_padding {s : String} (h : IsName s) : Path.isPadding s.toList = false := by
  have hdot : s.toList ≠ ['.'] := fun heq => h.2.1 (String.toList_injective (heq.trans (by decide)))
  have hnil : s.toList ≠ [] := fun heq => h.1 (String.toList_eq_nil_iff.1 heq)
  simp [Path.isPadding, hdot, hnil]

theorem IsName.stepsOf {s : String} (h : IsName s) : Path.stepsOf [s.toList] = [.name s] :=
  Path.stepsOf_name h.not_padding h.2.2.1

theorem IsName.components_div {s : String} (h : IsName s) (p : Path) :
    (p / s).components = p.components ++ [.name s] := by
  have hsegments := Path.segments_of_name h.no_slash
  show (p.join ⟨s⟩).components = _
  by_cases hp : p.text = ""
  · have hne : s.toList ≠ [] := fun hnil => h.1 (String.toList_eq_nil_iff.1 hnil)
    rw [Path.join_of_empty hp, Path.components_eq_nil hp, List.nil_append,
      Path.components_of_text_ne hsegments h.1, Path.leadOf, if_neg hne, ← h.stepsOf,
      Path.stepsOf_cons, h.not_padding]
    rfl
  · rw [Path.components_join (Path.isAbsolute_of_name h.no_slash) hp, hsegments, h.stepsOf]

theorem IsName.text_join_ne {p : Path} (hp : p.text ≠ "") {s : String} (h : IsName s) :
    (p / s).text ≠ "" :=
  Path.text_join_ne hp (Path.isAbsolute_of_name h.no_slash)

namespace FileTree

variable {t : FileTree} {p dir : Path}

@[simp] theorem pathTo_nil (p : Path) : pathTo p [] = p := rfl

theorem pathTo_concat (p : Path) (names : Location) (name : String) :
    pathTo p (names ++ [name]) = pathTo p names / name := by
  simp [pathTo]

theorem pathTo_spec (hdir : dir.text ≠ "") {names : Location} (hnames : ∀ s ∈ names, IsName s) :
    (pathTo dir names).components = dir.components ++ names.map .name ∧
      (pathTo dir names).text ≠ "" ∧ (dir.IsPlain → (pathTo dir names).IsPlain) := by
  induction names using List.reverseRecOn with
  | nil => simp [hdir]
  | append_singleton names name ih =>
    obtain ⟨hcs, hne, hplain⟩ := ih fun s hs => hnames s (by simp [hs])
    have hname := hnames name (by simp)
    rw [pathTo_concat]
    refine ⟨?_, hname.text_join_ne hne, fun hdir => ?_⟩
    · rw [hname.components_div, hcs, List.map_append, List.append_assoc]
      rfl
    · exact (hplain hdir).join_name hne hname.no_slash hname.not_padding

theorem not_nul_pathTo (hdir : '\x00' ∉ dir.text.toList) {names : Location}
    (hnames : ∀ s ∈ names, IsName s) : '\x00' ∉ (pathTo dir names).text.toList := by
  induction names using List.reverseRecOn with
  | nil => exact hdir
  | append_singleton names name ih =>
    have hold := ih fun s hs => hnames s (by simp [hs])
    have hname : '\x00' ∉ name.toList := (hnames name (by simp)).2.2.2.2
    rw [pathTo_concat]
    show '\x00' ∉ ((pathTo dir names).join ⟨name⟩).text.toList
    unfold Path.join
    split
    · exact hname
    · split <;> simp [hold, hname]

/-- A listing has the files at locations below the directory, as long as the directories that
they lie in can be looked up. -/
theorem mem_filesBelow_iff {loc : Location} (hloc : t.locate dir = .ok loc) :
    p ∈ t.filesBelow dir ↔ ∃ names contents, t.entry? (loc ++ names) = some (.file contents) ∧
      refusal? (pathTo dir names.dropLast) = none ∧ p = pathTo dir names := by
  simp only [filesBelow, hloc, List.mem_filterMap, Prod.exists]
  constructor
  · rintro ⟨full, e, hmem, hlisted⟩
    have hentry : t.entry? full = some e := Std.TreeMap.mem_toList_iff_getElem?_eq_some.1 hmem
    split at hlisted
    · next names contents hbelow =>
      obtain rfl := eq_append_of_locationBelow? hbelow
      obtain ⟨hrefusal, hp⟩ := Option.ite_none_right_eq_some.1 hlisted
      exact ⟨names, contents, hentry, hrefusal, (Option.some.inj hp).symm⟩
    · simp at hlisted
  · rintro ⟨names, contents, hentry, hrefusal, rfl⟩
    refine ⟨loc ++ names, .file contents, Std.TreeMap.mem_toList_iff_getElem?_eq_some.2 hentry, ?_⟩
    simp [locationBelow?, hrefusal]

/-- A listed file is reached through names from the directory. -/
theorem exists_of_mem_filesBelow (h : p ∈ t.filesBelow dir) :
    ∃ loc names contents, t.locate dir = .ok loc ∧
      t.entry? (loc ++ names) = some (.file contents) ∧ p = pathTo dir names := by
  cases hloc : t.locate dir with
  | error cause => simp [filesBelow, hloc] at h
  | ok loc =>
    obtain ⟨names, contents, hentry, -, hp⟩ := (mem_filesBelow_iff hloc).1 h
    exact ⟨loc, names, contents, rfl, hentry, hp⟩

theorem isName_of_entry? {loc : Location} {e : Entry} (h : t.entry? loc = some e) :
    ∀ s ∈ loc, IsName s := by
  refine t.isName_of_mem loc ?_
  rw [Std.TreeMap.mem_iff_isSome_getElem?]
  unfold entry? at h
  simp [h]

/-- What a listing of a directory gives: longer paths with only names added. -/
theorem mem_filesBelow (h : p ∈ t.filesBelow dir) :
    ∃ names : Location, (∀ s ∈ names, IsName s) ∧ p = pathTo dir names ∧ dir.text ≠ "" := by
  obtain ⟨loc, names, contents, hloc, hentry, rfl⟩ := exists_of_mem_filesBelow h
  refine ⟨names, fun s hs => isName_of_entry? hentry s (by simp [hs]), rfl, ?_⟩
  exact text_ne_of_locate hloc

/-- A listed file that can be read under its plain path can be read under the path
that it is listed under, unless that is too long. -/
theorem read_of_mem_filesBelow (hdir : t.isDirectory dir = true) (habs : dir.isAbsolute = true)
    (h : p ∈ t.filesBelow dir) (hshort : IsShort p) {q : Path} (hsame : p.SameAs q)
    (hq : q.IsPlain) {contents : ByteArray} (hread : t.read q = .ok contents) :
    t.read p = .ok contents := by
  obtain ⟨loc, names, held, hloc, hentry, rfl⟩ := exists_of_mem_filesBelow h
  have hnames : ∀ s ∈ names, IsName s := fun s hs => isName_of_entry? hentry s (by simp [hs])
  have hdirne := text_ne_of_locate hloc
  cases names using List.reverseRecOn with
  | nil =>
    -- a directory is not a file
    obtain ⟨loc', hloc', hentry'⟩ := exists_locate_of_isDirectory hdir
    obtain rfl : loc = loc' := Except.ok.inj (hloc.symm.trans hloc')
    simp [hentry'] at hentry
  | append_singleton names name =>
    have hname := hnames name (by simp)
    obtain ⟨hcs, hne, -⟩ := pathTo_spec hdirne fun s hs => hnames s (List.mem_append_left _ hs)
    obtain ⟨hcs', hne', -⟩ := pathTo_spec hdirne hnames
    have hpabs : (pathTo dir (names ++ [name])).isAbsolute = true := by
      rw [Path.isAbsolute_iff_head] at habs ⊢
      rw [hcs']
      cases hd : dir.components with
      | nil => simp [hd] at habs
      | cons c cs => simpa [hd] using habs
    obtain ⟨first, rest, kept, -, hsegs, -⟩ :=
      Path.segments_join (Path.isAbsolute_of_name hname.no_slash) hne
    rw [Path.segments_of_name hname.no_slash] at hsegs
    have hsegs' : (pathTo dir (names ++ [name])).segments = first :: (kept ++ [name.toList]) := by
      rw [pathTo_concat]
      exact hsegs
    have hrefusal : refusal? (pathTo dir (names ++ [name])) = none :=
      refusal?_eq_none hne' (not_nul_pathTo (isShort_of_refusal?_eq_none (locate_eq_ok hloc).1).2.1
        hnames) hshort
    obtain ⟨loc', hlocq, hentryq⟩ := exists_locate_of_read hread
    exact read_of_locate
      (locate_of_sameAs hsame hpabs hq hsegs' hname.not_padding hrefusal hlocq) hentryq

end FileTree

end Vendoring

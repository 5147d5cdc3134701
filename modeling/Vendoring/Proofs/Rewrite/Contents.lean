/-
# What rewriting does to a file

A file leaves the rewriting with the text that the rewriter gives for it. A file that holds
nothing, that is no text or that is of a kind without specifiers keeps what it holds, and so
does every file as long as nothing is known about what was written.
-/

import Vendoring.Proofs.Build.Run

namespace Vendoring

namespace Text

variable {bytes : ByteArray} {text : String}

/-- A text that was read is written back as it was. -/
theorem toUTF8_of_decode? (h : decode? bytes = some text) : text.toUTF8 = bytes := by
  unfold decode? String.fromUTF8? at h
  split at h
  · rw [← Option.some.inj h]
    rfl
  · simp at h

end Text

namespace Rewriter

variable (w : Rewriter) (kind : FileKind) (source dir : Path)

/-- A text in which nothing changes stays as it is. -/
theorem rewrite_of_replacements_eq_nil {content : String}
    (h : w.replacements content kind source dir = []) :
    w.rewrite content kind source dir = content := by
  rw [rewrite, h, List.foldr_nil, String.ofList_toList]

theorem rewrite_empty : w.rewrite "" kind source dir = "" := by
  apply rewrite_of_replacements_eq_nil
  cases kind <;> rfl

/-- As long as nothing has been written, there is nothing to point at. -/
theorem rewrite_of_table_empty (hentries : w.table.entries.isEmpty = true)
    (hemitted : w.table.emitted.isEmpty = true) (content : String) :
    w.rewrite content kind source dir = content := by
  have houtput (p : Path) : w.table.outputOf? p = none := Std.TreeMap.getElem?_of_isEmpty hemitted
  have hentry (name : String) : w.table.get? name = none := Std.TreeMap.getElem?_of_isEmpty hentries
  have hlocate (specifier : String) : w.locate? specifier kind source = none := by
    refine Option.bind_eq_none_iff.2 fun r _ => ?_
    simp [houtput]
  have hspecifier (specifier : String) : w.rewriteSpecifier? specifier kind source dir = none := by
    simp only [rewriteSpecifier?, hlocate]
    split <;> simp [hentry]
  apply rewrite_of_replacements_eq_nil
  simp [replacements, hspecifier]

end Rewriter

namespace BuildOutput

variable (w : Rewriter) {f f' : OutputFile}

/-- The file with the text that the rewriter gives for it. -/
def rewritten (f : OutputFile) : OutputFile :=
  if f.kind.isRewritable then
    match f.contents.bind Text.decode? with
    | some text => { f with contents := some (w.rewrite text f.kind f.source f.relativeDir).toUTF8 }
    | none => f
  else f

theorem text_of_rewriteFile? (h : rewriteFile? w f = some f') :
    f.kind.isRewritable = true ∧ ∃ text, f.contents.bind Text.decode? = some text ∧
      w.rewrite text f.kind f.source f.relativeDir ≠ text ∧
      f' = { f with contents := some (w.rewrite text f.kind f.source f.relativeDir).toUTF8 } := by
  unfold rewriteFile? at h
  split at h
  · next hkind =>
    obtain ⟨text, htext, h⟩ := Option.bind_eq_some_iff.1 h
    dsimp only at h
    split at h
    · simp at h
    · next hne => exact ⟨hkind, text, htext, hne, (Option.some.inj h).symm⟩
  · simp at h

/-- A file is given out anew exactly if its contents change. -/
theorem contents_ne_of_rewriteFile? (h : rewriteFile? w f = some f') :
    f'.contents ≠ f.contents := by
  obtain ⟨-, text, htext, hne, rfl⟩ := text_of_rewriteFile? w h
  obtain ⟨bytes, hbytes, hdecode⟩ := Option.bind_eq_some_iff.1 htext
  rw [hbytes, ← Text.toUTF8_of_decode? hdecode]
  intro heq
  exact hne (String.toByteArray_inj.1 (Option.some.inj heq))

/-- Whether or not the text changes, a file leaves the rewriting with it. -/
theorem getD_rewriteFile? (f : OutputFile) : (rewriteFile? w f).getD f = rewritten w f := by
  unfold rewritten
  split
  · next hkind =>
    split
    · next text htext =>
      obtain ⟨bytes, hbytes, hdecode⟩ := Option.bind_eq_some_iff.1 htext
      by_cases hsame : w.rewrite text f.kind f.source f.relativeDir = text
      · rw [hsame, Text.toUTF8_of_decode? hdecode, ← hbytes]
        simp [rewriteFile?, htext, hsame]
      · simp [rewriteFile?, hkind, htext, hsame]
    · next htext => simp [rewriteFile?, htext]
  · next hkind => simp [rewriteFile?, hkind]

theorem rewritten_of_table_empty (hentries : w.table.entries.isEmpty = true)
    (hemitted : w.table.emitted.isEmpty = true) (f : OutputFile) : rewritten w f = f := by
  unfold rewritten
  split
  · split
    · next text htext =>
      obtain ⟨bytes, hbytes, hdecode⟩ := Option.bind_eq_some_iff.1 htext
      rw [w.rewrite_of_table_empty _ _ _ hentries hemitted, Text.toUTF8_of_decode? hdecode,
        ← hbytes]
    · rfl
  · rfl

end BuildOutput

/-- There is nothing to rewrite in the file: it holds nothing, it is no text, or the place that
it is written to is of a kind without specifiers. -/
def SourceFile.IsFixed (input : SourceFile) : Prop :=
  input.isNull = true ∨ (∃ bytes, input.contents = some bytes ∧ Text.decode? bytes = none) ∨
    FileKind.ofPath input.relative = .other

theorem SourceFile.IsFixed.rewriteFile? {input : SourceFile} (h : input.IsFixed) (w : Rewriter) :
    BuildOutput.rewriteFile? w (BuildOutput.ofInput input) = none := by
  refine Option.eq_none_iff_forall_ne_some.2 fun f' hf' => ?_
  obtain ⟨hkind, text, htext, hne, -⟩ := BuildOutput.text_of_rewriteFile? w hf'
  obtain ⟨bytes, hbytes, hdecode⟩ := Option.bind_eq_some_iff.1 htext
  replace hbytes : input.contents = some bytes := hbytes
  rcases h with hnull | ⟨damaged, hdamaged, hnone⟩ | hother
  · rw [SourceFile.isNull, hbytes, Option.all_some, decide_eq_true_eq,
      ← Text.toUTF8_of_decode? hdecode] at hnull
    obtain rfl : text = "" := String.utf8ByteSize_eq_zero_iff.1 hnull
    exact hne (w.rewrite_empty _ _ _)
  · obtain rfl := Option.some.inj (hdamaged.symm.trans hbytes)
    simp [hnone] at hdecode
  · replace hother : (BuildOutput.ofInput input).kind = .other := hother
    simp [hother, FileKind.isRewritable] at hkind

end Vendoring

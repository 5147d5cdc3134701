/-
# Rewriting as a splice

Offsets name places of the text as it was read, while replacements change what
lies behind them. Made from the last to the first, each one meets the text in
front of it as it was read, and this is all that it needs: the specifiers stand
one behind the other, so nothing that is replaced later reaches into what has been
replaced. The rewritten text is the text with its specifiers exchanged where they
stand, and every gap between them is kept.
-/

import Vendoring.Proofs.Scan.Order
import Vendoring.Rewrite.Basic

namespace Vendoring

open Scan

/-- The second text is the first one with its specifiers exchanged, where the texts lie
behind `offset` bytes. In front of each specifier stands a gap that both texts share. -/
inductive Spliced (new : String → Option String) :
    Nat → List Match → List Char → List Char → Prop
  | rest (offset : Nat) (s : List Char) : Spliced new offset [] s s
  | specifier {offset : Nat} {m : Match} {ms : List Match} {gap s s' : List Char}
      (start_eq : m.start = offset + byteLength gap)
      (stop_eq : m.stop = m.start + byteLength m.specifier.toList)
      (behind : Spliced new m.stop ms s s') :
      Spliced new offset (m :: ms) (gap ++ m.specifier.toList ++ s)
        (gap ++ ((new m.specifier).getD m.specifier).toList ++ s')

variable {new : String → Option String} {offset : Nat} {ms : List Match} {s s' s'' : List Char}

/-- The text and the places of its specifiers determine what the exchange makes of it. -/
theorem Spliced.unique (h : Spliced new offset ms s s') (h' : Spliced new offset ms s s'') :
    s' = s'' := by
  induction h generalizing s'' with
  | rest offset s =>
    cases h'
    rfl
  | @specifier offset m ms gap s s' start_eq stop_eq _ ih =>
    generalize htext : gap ++ m.specifier.toList ++ s = text at h'
    cases h' with
    | @specifier _ _ _ gap' u u' start_eq' _ behind' =>
      rw [List.append_assoc, List.append_assoc] at htext
      obtain rfl := eq_of_byteLength_eq htext (by omega)
      obtain rfl := List.append_cancel_left (List.append_cancel_left htext)
      rw [ih behind']

/-- Text in front of a splice belongs to its first gap. -/
theorem Spliced.behind_gap {gap : List Char} (h : Spliced new (offset + byteLength gap) ms s s') :
    Spliced new offset ms (gap ++ s) (gap ++ s') := by
  cases h with
  | rest => exact .rest offset _
  | @specifier _ m ms own s s' start_eq stop_eq behind =>
    have hspliced : Spliced new offset (m :: ms) ((gap ++ own) ++ m.specifier.toList ++ s)
        ((gap ++ own) ++ ((new m.specifier).getD m.specifier).toList ++ s') :=
      .specifier (by rw [start_eq, byteLength_append, Nat.add_assoc]) stop_eq behind
    simpa using hspliced

/-- Specifiers that stand where the text holds them, one behind the other, can be exchanged. -/
theorem exists_spliced (new : String → Option String) (front s : List Char)
    (hcovers : ∀ m ∈ ms, m.Covers (front ++ s)) (hfront : ∀ m ∈ ms, byteLength front ≤ m.start)
    (horder : ms.Pairwise Match.Precedes) : ∃ s', Spliced new (byteLength front) ms s s' := by
  induction ms generalizing front s with
  | nil => exact ⟨s, .rest _ s⟩
  | cons m ms ih =>
    obtain ⟨hm, hms⟩ := List.pairwise_cons.1 horder
    obtain ⟨before, behind, htext, hstart, hstop⟩ := hcovers m List.mem_cons_self
    -- the specifier lies behind the front, so there is a gap between them
    obtain ⟨gap, rfl⟩ : front <+: before := by
      refine prefix_of_byteLength_le (htext.trans (List.append_assoc _ _ _)) ?_
      rw [← hstart]
      exact hfront m List.mem_cons_self
    obtain rfl : s = gap ++ m.specifier.toList ++ behind := by simpa using htext
    obtain ⟨s', hs'⟩ := ih (front ++ gap ++ m.specifier.toList) behind
      (fun n hn => htext ▸ hcovers n (List.mem_cons_of_mem _ hn))
      (fun n hn => hstop ▸ (hm n hn).stop_le) hms
    rw [← hstop] at hs'
    refine ⟨_, .specifier ?_ ?_ hs'⟩
    · rw [hstart, byteLength_append]
    · rw [hstop, hstart, byteLength_append]

namespace Rewriter

/-! ## Making replacements -/

theorem splitAtByte_append (front s : List Char) :
    splitAtByte (byteLength front) (front ++ s) = (front, s) := by
  induction front with
  | nil => cases s <;> rfl
  | cons c front ih =>
    have hpos := c.utf8Size_pos
    obtain ⟨n, hn⟩ : ∃ n, byteLength (c :: front) = n + 1 :=
      ⟨byteLength (c :: front) - 1, by rw [byteLength_cons]; omega⟩
    have hrest : n + 1 - c.utf8Size = byteLength front := by
      rw [← hn, byteLength_cons]
      omega
    rw [hn, List.cons_append, splitAtByte, hrest, ih]
    exact fun h => by cases h

/-- A replacement exchanges the text of its span. -/
theorem apply_append (front old s : List Char) (text : String) :
    Replacement.apply ⟨byteLength front, byteLength (front ++ old), text⟩ (front ++ (old ++ s)) =
      front ++ (text.toList ++ s) := by
  rw [Replacement.apply, splitAtByte_append]
  simp only
  rw [← List.append_assoc front old, splitAtByte_append, List.append_assoc]

/-- The replacements of those specifiers that change. -/
def replacementsOf (new : String → Option String) (ms : List Match) : List Replacement :=
  ms.filterMap fun m => ((new m.specifier).filter (· ≠ m.specifier)).map fun text =>
    ⟨m.start, m.stop, text⟩

theorem replacements_eq (w : Rewriter) (content : String) (kind : FileKind) (source dir : Path) :
    w.replacements content kind source dir =
      replacementsOf (fun specifier => w.rewriteSpecifier? specifier kind source dir)
        (scan kind content) := rfl

/-- Replacements made from the last to the first exchange the specifiers behind the front
and leave the front as it is. -/
theorem foldr_apply (h : Spliced new offset ms s s') (front : List Char)
    (hfront : byteLength front = offset) :
    (replacementsOf new ms).foldr Replacement.apply (front ++ s) = front ++ s' := by
  induction h generalizing front with
  | rest => rfl
  | @specifier offset m ms gap s s' start_eq stop_eq _ ih =>
    have hstart : m.start = byteLength (front ++ gap) := by
      rw [start_eq, byteLength_append, hfront]
    have hstop : m.stop = byteLength (front ++ gap ++ m.specifier.toList) := by
      rw [stop_eq, hstart, byteLength_append _ m.specifier.toList]
    have hbehind := ih _ hstop.symm
    have hassoc (u v : List Char) : front ++ (gap ++ u ++ v) = front ++ gap ++ u ++ v := by simp
    rw [hassoc, hassoc]
    cases hnew : (new m.specifier).filter (· ≠ m.specifier) with
    | none =>
      have hsame : (new m.specifier).getD m.specifier = m.specifier := by
        cases htext : new m.specifier with
        | none => rfl
        | some text => simpa [htext] using hnew
      rw [replacementsOf, List.filterMap_cons_none (by rw [hnew]; rfl), hsame]
      exact hbehind
    | some text =>
      have htext : new m.specifier = some text := (Option.filter_eq_some_iff.1 hnew).1
      rw [replacementsOf, List.filterMap_cons_some (by rw [hnew]; rfl), List.foldr_cons]
      rw [← replacementsOf, hbehind, hstart, hstop, List.append_assoc _ _ s', apply_append, htext]
      simp

/-- Rewriting a script or a stylesheet is an exact splice. Its specifiers stand within the
text and between characters, one behind the other, where the text holds them; and the new
text is the old one with each specifier exchanged for what it is rewritten to. -/
theorem rewrite_splices (w : Rewriter) (content : String) {kind : FileKind}
    (hkind : kind = .script ∨ kind = .stylesheet) (source dir : Path) :
    (∀ m ∈ scan kind content, m.Covers content.toList ∧ m.stop ≤ content.utf8ByteSize) ∧
      (scan kind content).Pairwise Match.Precedes ∧
      Spliced (fun specifier => w.rewriteSpecifier? specifier kind source dir) 0
        (scan kind content) content.toList (w.rewrite content kind source dir).toList := by
  obtain ⟨hcovers, horder⟩ := scan_separate hkind content
  refine ⟨fun m hm => ⟨hcovers m hm, byteLength_toList content ▸ (hcovers m hm).stop_le⟩,
    horder, ?_⟩
  obtain ⟨s', hs'⟩ := exists_spliced
    (fun specifier => w.rewriteSpecifier? specifier kind source dir) [] content.toList hcovers
    (fun m _ => Nat.zero_le _) horder
  have hrewrite : (w.rewrite content kind source dir).toList = s' := by
    rw [rewrite, String.toList_ofList, replacements_eq]
    exact foldr_apply hs' [] rfl
  rw [hrewrite]
  exact hs'

/-- Rewriting where the package `kit` was written, without a resolver. -/
def kitRewriter : Rewriter where
  table := PackageTable.insert {} { name := "kit", outputRoot := ⟨"miniprogram_npm/kit"⟩ }

/-- A script with a statement, a call that is kept and a call of a package. Behind the
first specifier stands a character of two bytes. -/
def kitScript : String := "import 'kit/a'; // é\nrequire('./b'); require(\"kit\")"

theorem rewrite_splices_kitScript :
    scan .script kitScript = [⟨8, 13, "kit/a"⟩, ⟨31, 34, "./b"⟩, ⟨47, 50, "kit"⟩] ∧
      kitRewriter.rewrite kitScript .script ⟨"/src/a.js"⟩ ⟨"src"⟩ =
        "import '../miniprogram_npm/kit/a'; // é\nrequire('./b'); require(\"../miniprogram_npm/kit\")" ∧
      (∀ m ∈ scan .script kitScript,
        m.Covers kitScript.toList ∧ m.stop ≤ kitScript.utf8ByteSize) ∧
      (scan .script kitScript).Pairwise Match.Precedes ∧
      Spliced (fun specifier => kitRewriter.rewriteSpecifier? specifier .script ⟨"/src/a.js"⟩ ⟨"src"⟩)
        0 (scan .script kitScript) kitScript.toList
        (kitRewriter.rewrite kitScript .script ⟨"/src/a.js"⟩ ⟨"src"⟩).toList :=
  ⟨by decide +kernel, by decide +kernel, kitRewriter.rewrite_splices kitScript (.inl rfl) _ _⟩

end Rewriter

end Vendoring

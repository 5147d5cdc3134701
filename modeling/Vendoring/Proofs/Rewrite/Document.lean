/-
# Rewriting a manifest

The declarations of a manifest are found by the marks in its text, and their new specifiers
are written there as they are. If each of those that change is a value of the document and
is found once, and its new specifier needs no escapes, then the new text is the same document
with these values exchanged.
-/

import Vendoring.Proofs.Json.Documents
import Vendoring.Proofs.Rewrite.Splice

namespace Vendoring

open Scan

/-- A string that is a value of the document starts at the byte offset, behind its quote. -/
def Json.IsValueAt (s : List Char) (offset : Nat) : Prop :=
  ∃ front behind text left, s = front ++ '"' :: behind ∧ offset = byteLength (front ++ ['"']) ∧
    front.foldl BraceState.next .code = .code ∧ Json.readString behind = some (text, left) ∧
    (Json.skipSpace left).head? ≠ some ':'

namespace Scan

/-- The match is a value of the document, which is written as `raw` between the two pieces of
the text. -/
structure Match.IsValue (m : Match) (s front raw behind : List Char) : Prop where
  text_eq : s = front ++ '"' :: (raw ++ '"' :: behind)
  start_eq : m.start = byteLength (front ++ ['"'])
  stop_eq : m.stop = byteLength (front ++ '"' :: raw)
  outside : front.foldl BraceState.next .code = .code
  written : Json.IsWritten raw m.specifier
  no_key : (Json.skipSpace behind).head? ≠ some ':'

variable {m n : Match} {s front raw behind front' raw' behind' : List Char}

/-- A declaration that is found where a value starts is this value. -/
theorem exists_isValue (hm : m ∈ scanManifest s) (h : Json.IsValueAt s m.start) :
    ∃ front raw behind, m.IsValue s front raw behind := by
  obtain ⟨raw, hwrites⟩ := exists_writes_of_mem_scanManifest hm
  obtain ⟨front, behind, hs, hstart, hstop⟩ := hwrites.covered
  obtain ⟨front', inside, text, left, hs', hstart', houtside, hread, hkey⟩ := h
  obtain ⟨raw', rfl, hraw', hwritten⟩ := Json.readString_eq_some hread
  -- both texts lead up to the same quote
  obtain rfl : front = front' := by
    refine eq_of_byteLength_eq (hs.symm.trans hs') ?_
    simpa using hstart.symm.trans hstart'
  have hinside := List.append_cancel_left (hs.symm.trans hs')
  obtain ⟨rfl, rfl⟩ := hwrites.isRaw.unique hraw' (List.cons.inj hinside).2
  have hspecifier : text = m.specifier :=
    Option.some.inj (hwritten.decodeRaw?.symm.trans hwrites.means)
  exact ⟨front, raw, behind, hs, hstart, hstop, houtside, hspecifier ▸ hwritten, hkey⟩

namespace Match.IsValue

theorem outside_behind (h : m.IsValue s front raw behind) :
    (front ++ '"' :: (raw ++ ['"'])).foldl BraceState.next .code = .code := by
  have hstring : (raw ++ ['"']).foldl BraceState.next .string = .code := by
    rw [List.foldl_append, h.written.isRaw.stays_open]
    rfl
  rw [List.foldl_append, h.outside]
  exact hstring

/-- Of two values the later one starts behind the quote that ends the first one. -/
theorem prefix_of_start_lt (h : m.IsValue s front raw behind) (h' : n.IsValue s front' raw' behind')
    (hlt : m.start < n.start) : front ++ '"' :: (raw ++ ['"']) <+: front' := by
  have hle : byteLength (front ++ ['"']) ≤ byteLength front' := by
    have hstart := h.start_eq
    have hstart' := h'.start_eq
    have hquote : '"'.utf8Size = 1 := rfl
    simp only [byteLength_append, byteLength_cons, byteLength_nil] at hstart hstart' ⊢
    omega
  have htext : (front ++ ['"']) ++ (raw ++ '"' :: behind) =
      front' ++ '"' :: (raw' ++ '"' :: behind') := by
    rw [← h'.text_eq, h.text_eq]
    simp
  obtain ⟨between, rfl⟩ := prefix_of_byteLength_le htext hle
  rw [List.append_assoc (front ++ ['"'])] at htext
  have hbetween : between <+: raw ++ '"' :: behind := ⟨_, (List.append_cancel_left htext).symm⟩
  have hcode := h'.outside
  rw [List.foldl_append, List.foldl_append, h.outside] at hcode
  obtain ⟨more, rfl⟩ := h.written.isRaw.prefix_of_code hbetween hcode
  exact ⟨more, by simp⟩

end Match.IsValue

end Scan

namespace Rewriter

variable (new : String → Option String)

/-- The specifiers that change, with their new ones. -/
def changesOf (ms : List Match) : List (Match × String) :=
  ms.filterMap fun m => ((new m.specifier).filter (· ≠ m.specifier)).map (m, ·)

theorem replacementsOf_eq (ms : List Match) :
    replacementsOf new ms = (changesOf new ms).map fun (m, text) => ⟨m.start, m.stop, text⟩ := by
  rw [changesOf, List.map_filterMap]
  simp only [Option.map_map]
  rfl

/-- Replacements made from the last to the first exchange the values behind the front. -/
theorem foldr_exchanges {changes : List (Match × String)} (front s : List Char)
    (hfront : front.foldl BraceState.next .code = .code)
    (hvalues : ∀ x ∈ changes, (∃ before raw behind, x.1.IsValue (front ++ s) before raw behind) ∧
      new x.1.specifier = some x.2 ∧ Json.IsWritten x.2.toList x.2)
    (hbehind : ∀ x ∈ changes, byteLength front < x.1.start)
    (horder : changes.Pairwise fun x y => x.1.start < y.1.start) :
    ∃ s', (changes.map fun (m, text) => (⟨m.start, m.stop, text⟩ : Replacement)).foldr
        Replacement.apply (front ++ s) = front ++ s' ∧
      Json.Exchanges (fun old text => new old = some text) .code s s' := by
  induction changes generalizing front s with
  | nil => exact ⟨s, rfl, .rest _ s⟩
  | cons x changes ih =>
    obtain ⟨m, text⟩ := x
    obtain ⟨hfirst, horder⟩ := List.pairwise_cons.1 horder
    obtain ⟨⟨before, raw, behind, hm⟩, hnew, htext⟩ := hvalues _ List.mem_cons_self
    obtain ⟨gap, rfl⟩ : front <+: before := by
      refine prefix_of_byteLength_le hm.text_eq ?_
      have hstart := hbehind _ List.mem_cons_self
      have hquote : '"'.utf8Size = 1 := rfl
      rw [hm.start_eq, byteLength_append, byteLength_cons, byteLength_nil] at hstart
      omega
    obtain rfl : s = gap ++ '"' :: (raw ++ '"' :: behind) := by
      simpa using hm.text_eq
    have hwhole : front ++ (gap ++ '"' :: (raw ++ '"' :: behind)) =
        (front ++ gap ++ '"' :: (raw ++ ['"'])) ++ behind := by
      simp
    -- what is exchanged later lies behind the quote that ends this value
    obtain ⟨s', hs', hexchanges⟩ := ih (front ++ gap ++ '"' :: (raw ++ ['"'])) behind
      hm.outside_behind (hwhole ▸ fun y hy => hvalues y (List.mem_cons_of_mem _ hy))
      (fun y hy => by
        obtain ⟨⟨before', raw', behind', hn⟩, -, -⟩ := hvalues y (List.mem_cons_of_mem _ hy)
        have hle := byteLength_le_of_prefix (hm.prefix_of_start_lt hn (hfirst y hy))
        have hquote := '"'.utf8Size_pos
        rw [hn.start_eq, byteLength_append before', byteLength_cons]
        omega) horder
    have hgap : gap.foldl BraceState.next .code = .code := by
      have houtside := hm.outside
      rwa [List.foldl_append, hfront] at houtside
    refine ⟨gap ++ '"' :: (text.toList ++ '"' :: s'), ?_, Json.Exchanges.append ?_⟩
    · rw [List.map_cons, List.foldr_cons, hwhole, hs']
      have happly := apply_append (front ++ gap ++ ['"']) raw ('"' :: s') text
      simp only
      rw [hm.start_eq, hm.stop_eq]
      simpa using happly
    · rw [hgap]
      exact .value hm.written htext hnew hm.no_key hexchanges

/-- The declarations of a manifest that change, with their new specifiers. -/
def changes (w : Rewriter) (content : String) (source dir : Path) : List (Match × String) :=
  changesOf (fun specifier => w.rewriteSpecifier? specifier .manifest source dir)
    (scan .manifest content)

/-- Rewriting a manifest keeps the document, but for the strings that it exchanges, if the
declarations that change are values, each found once, and their new specifiers are plain. -/
theorem rewrite_alters (w : Rewriter) {content : String} (source dir : Path) {v : Json}
    (h : Json.parse? content = some v)
    (hvalues : ∀ x ∈ w.changes content source dir,
      Json.IsValueAt content.toList x.1.start ∧ Json.IsPlainText x.2.toList)
    (horder : (w.changes content source dir).Pairwise fun x y => x.1.start < y.1.start) :
    ∃ v', Json.parse? (w.rewrite content .manifest source dir) = some v' ∧
      Json.Alters (fun old text => w.rewriteSpecifier? old .manifest source dir = some text)
        v v' := by
  refine Json.parse?_of_exchanges h ?_
  have hchanges (x : Match × String) (hx : x ∈ w.changes content source dir) :
      (∃ front raw behind, x.1.IsValue ([] ++ content.toList) front raw behind) ∧
        w.rewriteSpecifier? x.1.specifier .manifest source dir = some x.2 ∧
        Json.IsWritten x.2.toList x.2 := by
    obtain ⟨m, hm, hmap⟩ := List.mem_filterMap.1 hx
    obtain ⟨text, htext, rfl⟩ := Option.map_eq_some_iff.1 hmap
    obtain ⟨hvalue, hplain⟩ := hvalues _ hx
    have hwritten := hplain.isWritten
    rw [String.ofList_toList] at hwritten
    exact ⟨exists_isValue hm hvalue, (Option.filter_eq_some_iff.1 htext).1, hwritten⟩
  obtain ⟨s', hs', hexchanges⟩ := foldr_exchanges
    (fun specifier => w.rewriteSpecifier? specifier .manifest source dir) [] content.toList rfl
    hchanges
    (fun x hx => by
      obtain ⟨⟨front, raw, behind, hm⟩, -⟩ := hchanges x hx
      have hquote := '"'.utf8Size_pos
      rw [hm.start_eq, byteLength_append, byteLength_cons, byteLength_nil]
      omega) horder
  rw [rewrite, String.toList_ofList, replacements_eq, replacementsOf_eq]
  exact hs' ▸ hexchanges

/-- A manifest with a component of a package and one that is kept. -/
def kitManifest : String :=
  "\x7b\"usingComponents\": \x7b\"a\": \"kit/a\", \"b\": \"./b\"\x7d\x7d"

theorem rewrite_alters_kitManifest :
    kitRewriter.changes kitManifest ⟨"/src/a.json"⟩ ⟨"src"⟩ =
        [(⟨27, 32, "kit/a"⟩, "../miniprogram_npm/kit/a")] ∧
      ∃ v v', Json.parse? kitManifest = some v ∧
        Json.parse? (kitRewriter.rewrite kitManifest .manifest ⟨"/src/a.json"⟩ ⟨"src"⟩) =
          some v' ∧
        Json.Alters (fun old text =>
          kitRewriter.rewriteSpecifier? old .manifest ⟨"/src/a.json"⟩ ⟨"src"⟩ = some text)
          v v' := by
  have hchanges : kitRewriter.changes kitManifest ⟨"/src/a.json"⟩ ⟨"src"⟩ =
      [(⟨27, 32, "kit/a"⟩, "../miniprogram_npm/kit/a")] := by decide +kernel
  have hparse : (Json.parse? kitManifest).isSome = true := by decide +kernel
  obtain ⟨v, hv⟩ := Option.isSome_iff_exists.1 hparse
  have hvalue : Json.IsValueAt kitManifest.toList 27 :=
    ⟨kitManifest.toList.take 26, kitManifest.toList.drop 27, "kit/a", kitManifest.toList.drop 33,
      by decide +kernel⟩
  obtain ⟨v', hv', halters⟩ := kitRewriter.rewrite_alters ⟨"/src/a.json"⟩ ⟨"src"⟩ hv
    (hchanges ▸ List.forall_mem_singleton.2 ⟨hvalue, by decide +kernel⟩)
    (hchanges ▸ List.pairwise_singleton _ _)
  exact ⟨hchanges, v, v', hv, hv', halters⟩

-- A new specifier that needs escapes breaks the document.
example :
    let content := "\x7b\"usingComponents\": \x7b\"a\": \"kit/a\\\"b\"\x7d\x7d"
    (Json.parse? content).isSome = true ∧
      (Json.parse? (kitRewriter.rewrite content .manifest ⟨"/src/a.json"⟩ ⟨"src"⟩)).isSome =
        false := by
  decide +kernel

-- A declaration in a block within a block is found twice, and would be replaced twice.
example :
    let inner := "\x7b\"usingComponents\":\x7b\"a\":\"kit/a\"\x7d\x7d"
    scan .manifest ("\x7b\"usingComponents\":" ++ inner ++ "\x7d") =
      [⟨44, 49, "kit/a"⟩, ⟨44, 49, "kit/a"⟩] := by
  decide +kernel

end Rewriter

end Vendoring

/-
# Stylesheets cut into imports

A search cuts a stylesheet into imports and the single characters between them. That no import
starts at a character may be decided far behind it, for a string is one only if it is closed on
its line, and the end of a bare specifier is decided behind the specifier. So an exchange of
specifiers could create an import in front of it, or lose one. It does not if the new specifiers
bring in nothing that would need a quote: the text behind every piece still begins with the same
character, and a string that is closed in the new text has been closed before. The new text is
cut into the same pieces, with the new specifiers in them.
-/

import Vendoring.Proofs.Scan.Found
import Vendoring.Proofs.Scan.Order

namespace Vendoring.Scan

open Text

variable {s spec rest lead start word u v : List Char} {quote : Option Char} {q c : Char}

/-! ## Where an import is seen -/

theorem behindAnyCase?_append (h : word.map Char.toLower = start) (rest : List Char) :
    behindAnyCase? start (word ++ rest) = some rest := by
  have hlength : start.length = word.length := by rw [← h, List.length_map]
  rw [behindAnyCase?, hlength, List.take_left, List.drop_left, if_pos h]

/-- No quote and no bare specifier is taken for `url(`. -/
theorem behindAnyCase?_eq_none (h : c.toLower ≠ 'u') (rest : List Char) :
    behindAnyCase? "url(".toList (c :: rest) = none := by
  refine if_neg fun heq => h ?_
  exact (List.cons.inj heq).1

theorem not_isBlank_of_isQuote (h : isQuote q = true) : isBlank q = false := by
  simp only [isQuote, Bool.or_eq_true, decide_eq_true_eq] at h
  rcases h with rfl | rfl <;> rfl

theorem toLower_ne_of_isQuote (h : isQuote q = true) : q.toLower ≠ 'u' := by
  simp only [isQuote, Bool.or_eq_true, decide_eq_true_eq] at h
  rcases h with rfl | rfl <;> decide

theorem not_isBlank_of_head?_url (h : word.map Char.toLower = "url(".toList) (rest : List Char) :
    ∀ c ∈ (word ++ rest).head?, isBlank c = false := by
  obtain ⟨c, letters, rfl, hc, -⟩ := List.map_eq_cons_iff.1 h
  simp only [List.cons_append, List.head?_cons, Option.mem_some_iff, forall_eq']
  rcases eq_or_of_toLower_eq hc with rfl | ⟨-, hnat⟩
  · decide
  · have hcapital : c.toNat = 85 := Nat.add_right_cancel hnat
    simp [isBlank, hcapital]

/-- A word and the white space behind it are passed over. -/
theorem behindAnyCase?_blanks (hword : word.map Char.toLower = start) (hblank : u.all isBlank = true)
    (hv : ∀ c ∈ v.head?, isBlank c = false) :
    behindAnyCase? start (word ++ (u ++ v)) = some (u ++ v) ∧ (u ++ v).dropWhile isBlank = v :=
  ⟨behindAnyCase?_append hword _, dropWhile_isBlank_append hblank hv⟩

/-- A lead with a specifier behind it is seen as an import. -/
theorem styleImport?_append (hlead : IsLead lead quote) (hheld : IsHeld quote spec rest)
    (before : Option Char) : styleImport? before (lead ++ spec ++ quote.toList ++ rest) =
      some ⟨(lead ++ spec ++ quote.toList).length, lead, spec⟩ := by
  have hat {s place : List Char} (hs : s = lead ++ place) :
      some (occurrenceAt s place spec quote.toList.length) =
        some ⟨(lead ++ spec ++ quote.toList).length, lead, spec⟩ := by
    rw [hs, occurrenceAt, ← Nat.add_zero (_ - _), take_front, List.take_zero, List.append_nil]
    simp only [List.length_append]
  cases hlead with
  | @quoted keyword gap quote keyword_eq isBlank_gap isQuote_quote =>
    have hquote := not_isBlank_of_isQuote isQuote_quote
    obtain ⟨hkeyword, hgap⟩ := behindAnyCase?_blanks keyword_eq isBlank_gap
      (v := quote :: (spec ++ quote :: rest)) (by simp [hquote])
    have htext := literal?_eq_some_iff.2 ⟨quote, rest, isQuote_quote, hheld.1, hheld.2, rfl⟩
    rw [show keyword ++ gap ++ [quote] ++ spec ++ (some quote).toList ++ rest =
      keyword ++ (gap ++ quote :: (spec ++ quote :: rest)) by simp]
    unfold styleImport?
    simp only [hkeyword, hgap, htext, Option.pure_def, Option.bind_eq_bind, Option.bind_some,
      behindAnyCase?_eq_none (toLower_ne_of_isQuote isQuote_quote), List.drop_one, List.tail_cons]
    exact hat (by simp)
  | @quotedUrl keyword gap url gap' quote keyword_eq isBlank_gap url_eq isBlank_gap' isQuote_quote =>
    have hquote := not_isBlank_of_isQuote isQuote_quote
    obtain ⟨hurl, hgap'⟩ := behindAnyCase?_blanks url_eq isBlank_gap'
      (v := quote :: (spec ++ quote :: rest)) (by simp [hquote])
    obtain ⟨hkeyword, hgap⟩ := behindAnyCase?_blanks keyword_eq isBlank_gap
      (not_isBlank_of_head?_url url_eq (gap' ++ quote :: (spec ++ quote :: rest)))
    have htext := literal?_eq_some_iff.2 ⟨quote, rest, isQuote_quote, hheld.1, hheld.2, rfl⟩
    rw [show keyword ++ gap ++ url ++ gap' ++ [quote] ++ spec ++ (some quote).toList ++ rest =
      keyword ++ (gap ++ (url ++ (gap' ++ quote :: (spec ++ quote :: rest)))) by simp]
    unfold styleImport?
    simp only [hkeyword, hgap, hurl, hgap', htext, Option.pure_def, Option.bind_eq_bind,
      Option.bind_some, List.drop_one, List.tail_cons]
    exact hat (by simp)
  | @bareUrl keyword gap url gap' keyword_eq isBlank_gap url_eq isBlank_gap' =>
    obtain ⟨hne, hbare, hrest⟩ := hheld
    have htext := bareText?_eq_some_iff.2 ⟨rest, hne, hbare, hrest, rfl⟩
    obtain ⟨c, spec, rfl⟩ := List.exists_cons_of_ne_nil hne
    have hc := hbare c List.mem_cons_self
    simp only [isBareChar, Bool.not_eq_true', Bool.or_eq_false_iff] at hc
    have hliteral : literal? (c :: spec ++ rest) = none := by simp [literal?, hc]
    obtain ⟨hurl, hgap'⟩ := behindAnyCase?_blanks url_eq isBlank_gap'
      (v := c :: spec ++ rest) (by simp [hc])
    obtain ⟨hkeyword, hgap⟩ := behindAnyCase?_blanks keyword_eq isBlank_gap
      (not_isBlank_of_head?_url url_eq (gap' ++ (c :: spec ++ rest)))
    rw [show keyword ++ gap ++ url ++ gap' ++ (c :: spec) ++ none.toList ++ rest =
      keyword ++ (gap ++ (url ++ (gap' ++ (c :: spec ++ rest)))) by simp]
    unfold styleImport?
    simp only [hkeyword, hgap, hurl, hgap', hliteral, htext, Option.pure_def, Option.bind_eq_bind,
      Option.bind_some]
    exact hat (by simp)

/-- Whether a specifier can be held at the front of a text: the quote that it stands in is closed
on its line, or the first character needs no quotes. -/
def CanHold (quote : Option Char) (s : List Char) : Prop :=
  match quote with
  | some q => ∃ body rest, s = body ++ q :: rest ∧ '\n' ∉ body
  | none => ∃ c ∈ s.head?, isBareChar c = true

theorem IsHeld.canHold (h : IsHeld quote spec rest) :
    CanHold quote (spec ++ quote.toList ++ rest) := by
  cases quote with
  | some q => exact ⟨spec, rest, by simp, h.2⟩
  | none =>
    obtain ⟨c, spec, rfl⟩ := List.exists_cons_of_ne_nil h.1
    exact ⟨c, rfl, h.2.1 c List.mem_cons_self⟩

theorem CanHold.exists_isHeld (h : CanHold quote s) :
    ∃ spec rest, IsHeld quote spec rest ∧ s = spec ++ quote.toList ++ rest := by
  cases quote with
  | some q =>
    obtain ⟨body, rest, rfl, hline⟩ := h
    -- the first quote of the sort closes the string
    obtain ⟨spec, behind, hs, hq⟩ :=
      List.eq_append_cons_of_mem (show q ∈ body ++ q :: rest by simp)
    have hfront := prefix_of_not_mem hs.symm hq
    refine ⟨spec, behind, ⟨hq, fun hmem => hline (hfront.subset hmem)⟩, ?_⟩
    rw [hs, Option.toList_some, List.append_assoc, List.singleton_append]
  | none =>
    obtain ⟨c, hc, hbare⟩ := h
    cases s with
    | nil => cases hc
    | cons d s =>
      obtain rfl : d = c := by simpa using hc
      have hread : bareText? (d :: s) = some (d :: s.takeWhile isBareChar) := by
        have htake : (d :: s).takeWhile isBareChar = d :: s.takeWhile isBareChar :=
          List.takeWhile_cons_of_pos hbare
        unfold bareText?
        split
        · next hnil => exact absurd (htake.symm.trans hnil) (List.cons_ne_nil _ _)
        · exact congrArg some htake
      obtain ⟨rest, hne, hall, hrest, hs⟩ := bareText?_eq_some_iff.1 hread
      exact ⟨_, rest, ⟨hne, hall, hrest⟩, by simpa using hs⟩

/-- An import is seen wherever a lead stands in front of a text that can hold a specifier. -/
theorem isSome_styleImport?_iff {before : Option Char} :
    (styleImport? before s).isSome = true ↔
      ∃ lead quote rest, IsLead lead quote ∧ CanHold quote rest ∧ s = lead ++ rest := by
  constructor
  · intro h
    obtain ⟨seen, hseen⟩ := Option.isSome_iff_exists.1 h
    obtain ⟨quote, rest, hlead, hheld, hs, -⟩ := styleImport?_eq_some hseen
    exact ⟨_, quote, _, hlead, hheld.canHold, by simpa using hs⟩
  · rintro ⟨lead, quote, rest, hlead, hhold, rfl⟩
    obtain ⟨spec, rest, hheld, rfl⟩ := hhold.exists_isHeld
    have hseen := styleImport?_append hlead hheld before
    rw [List.append_assoc, List.append_assoc, ← List.append_assoc spec] at hseen
    rw [hseen]
    rfl

/-! ## Cutting a stylesheet -/

/-- A piece of a stylesheet: a character that is passed over, or an import, by the text in front
of its specifier, the specifier and the quote behind it. -/
inductive Piece
  | passed (c : Char)
  | imported (lead : List Char) (specifier : String) (quote : Option Char)

namespace Piece

/-- The piece as it is written. -/
def text : Piece → List Char
  | passed c => [c]
  | imported lead specifier quote => lead ++ specifier.toList ++ quote.toList

def specifier? : Piece → Option String
  | passed _ => none
  | imported _ specifier _ => some specifier

/-- The piece with its specifier exchanged, if there is a new one. -/
def exchange (new : String → Option String) : Piece → Piece
  | passed c => passed c
  | imported lead specifier quote => imported lead ((new specifier).getD specifier) quote

/-- Pieces keep a specifier that is new. -/
theorem exchange_exchange {new : String → Option String}
    (hkept : ∀ spec spec', new spec = some spec' → new spec' = none) (piece : Piece) :
    (piece.exchange new).exchange new = piece.exchange new := by
  cases piece with
  | passed c => rfl
  | imported lead spec quote =>
    cases hnew : new spec with
    | none => simp [exchange, hnew]
    | some spec' => simp [exchange, hnew, hkept spec spec' hnew]

end Piece

theorem filterMap_specifier?_exchange (new : String → Option String) (pieces : List Piece) :
    (pieces.map (Piece.exchange new)).filterMap Piece.specifier? =
      (pieces.filterMap Piece.specifier?).map fun spec => (new spec).getD spec := by
  rw [List.filterMap_map, List.map_filterMap]
  congr 1
  funext piece
  cases piece <;> rfl

/-- The text of some pieces. -/
def textOf (pieces : List Piece) : List Char := pieces.flatMap Piece.text

@[simp] theorem textOf_cons (piece : Piece) (pieces : List Piece) :
    textOf (piece :: pieces) = piece.text ++ textOf pieces := rfl

/-- The pieces are the ones that a search makes of their text. -/
inductive IsCut : List Piece → Prop
  | nil : IsCut []
  | passed {c : Char} {pieces : List Piece}
      (unseen : ∀ before, styleImport? before (c :: textOf pieces) = none)
      (behind : IsCut pieces) : IsCut (.passed c :: pieces)
  | imported {lead : List Char} {specifier : String} {quote : Option Char} {pieces : List Piece}
      (isLead : IsLead lead quote) (isHeld : IsHeld quote specifier.toList (textOf pieces))
      (behind : IsCut pieces) : IsCut (.imported lead specifier quote :: pieces)

/-- Every stylesheet can be cut. -/
theorem exists_isCut (s : List Char) : ∃ pieces, IsCut pieces ∧ textOf pieces = s := by
  induction hn : s.length using Nat.strongRecOn generalizing s with
  | ind n ih =>
    cases s with
    | nil => exact ⟨[], .nil, rfl⟩
    | cons c s =>
      cases hseen : styleImport? none (c :: s) with
      | none =>
        obtain ⟨pieces, hcut, rfl⟩ := ih s.length (by simp [← hn]) s rfl
        exact ⟨.passed c :: pieces, .passed (fun _ => hseen) hcut, rfl⟩
      | some seen =>
        obtain ⟨quote, rest, hlead, hheld, hs, -⟩ := styleImport?_eq_some hseen
        obtain ⟨tail, htail, -⟩ := hlead.exists_cons
        have hlt : rest.length < n := by
          rw [← hn, hs, htail]
          simp
          omega
        obtain ⟨pieces, hcut, rfl⟩ := ih rest.length hlt rest rfl
        refine ⟨.imported seen.value.lead (String.ofList seen.value.specifier) quote :: pieces,
          .imported hlead ?_ hcut, ?_⟩
        · rwa [String.toList_ofList]
        · rw [hs, textOf_cons, Piece.text, String.toList_ofList]

/-- The specifiers at their places, in pieces that lie behind `offset` bytes. -/
def matchesIn : Nat → List Piece → List Match
  | _, [] => []
  | offset, .passed c :: pieces => matchesIn (offset + c.utf8Size) pieces
  | offset, .imported lead specifier quote :: pieces =>
    Occurrence.toMatch offset ⟨lead, specifier.toList⟩ ::
      matchesIn (offset + byteLength (Piece.imported lead specifier quote).text) pieces

theorem map_specifier_matchesIn (offset : Nat) (pieces : List Piece) :
    (matchesIn offset pieces).map (·.specifier) = pieces.filterMap Piece.specifier? := by
  induction pieces generalizing offset with
  | nil => rfl
  | cons piece pieces ih =>
    cases piece with
    | passed c => exact ih _
    | imported lead specifier quote =>
      rw [matchesIn, List.map_cons, ih]
      simp [Occurrence.toMatch, Piece.specifier?]

theorem map_searchFrom_textOf {pieces : List Piece} (h : IsCut pieces) (before : Option Char)
    (offset : Nat) : (searchFrom styleImport? 0 before offset (textOf pieces)).map
      (fun x => x.2.toMatch x.1) = matchesIn offset pieces := by
  induction h generalizing before offset with
  | nil => rfl
  | @passed c pieces unseen _ ih =>
    rw [textOf_cons, Piece.text, List.singleton_append, searchFrom]
    simp only [unseen]
    exact ih _ _
  | @imported lead specifier quote pieces isLead isHeld _ ih =>
    obtain ⟨tail, rfl, -⟩ := isLead.exists_cons
    obtain ⟨last, hlast⟩ := exists_searchFrom_seen
      (styleImport?_append isLead isHeld before) rfl (by simp)
    rw [textOf_cons, Piece.text, hlast, List.map_cons, ih]
    rfl

/-- What a scan finds in a stylesheet are the specifiers of its pieces. -/
theorem scanStylesheet_textOf {pieces : List Piece} (h : IsCut pieces) :
    scanStylesheet (textOf pieces) = matchesIn 0 pieces :=
  (scanStylesheet_eq_matchesOf _).trans (map_searchFrom_textOf h none 0)

/-! ## Exchanging specifiers -/

/-- The second text can stand wherever the first one is a specifier: it brings in nothing that
needs a quote, and is not empty unless the first one is. -/
structure StandsIn (old new : List Char) : Prop where
  bare_or_mem : ∀ c ∈ new, isBareChar c = true ∨ c ∈ old
  ne_nil : old ≠ [] → new ≠ []

theorem StandsIn.refl (spec : List Char) : StandsIn spec spec :=
  ⟨fun _ => .inr, id⟩

theorem StandsIn.not_mem {old new : List Char} (h : StandsIn old new) (hc : isBareChar c = false)
    (hold : c ∉ old) : c ∉ new := fun hmem =>
  (h.bare_or_mem c hmem).elim (by simp [hc]) hold

theorem StandsIn.isHeld {old new rest' : List Char} (h : StandsIn old new)
    (hquote : ∀ q ∈ quote, isQuote q = true) (hhead : rest'.head? = rest.head?)
    (hheld : IsHeld quote old rest) : IsHeld quote new rest' := by
  cases quote with
  | some q =>
    have hq : isBareChar q = false := by simp [isBareChar, hquote q rfl]
    exact ⟨h.not_mem hq hheld.1, h.not_mem (by decide) hheld.2⟩
  | none =>
    obtain ⟨hne, hbare, hrest⟩ := hheld
    exact ⟨h.ne_nil hne, fun c hc => (h.bare_or_mem c hc).elim id (hbare c), hhead ▸ hrest⟩

theorem IsLead.isQuote {quote : Option Char} (h : IsLead lead quote) :
    ∀ q ∈ quote, isQuote q = true := by
  cases h with
  | quoted _ _ isQuote_quote => exact fun q hq => Option.mem_some_iff.1 hq ▸ isQuote_quote
  | quotedUrl _ _ _ _ isQuote_quote => exact fun q hq => Option.mem_some_iff.1 hq ▸ isQuote_quote
  | bareUrl => exact fun q hq => by cases hq

theorem IsHeld.not_mem_newline (h : IsHeld quote spec rest) : '\n' ∉ spec := by
  cases quote with
  | some q => exact h.2
  | none => exact fun hmem => absurd (h.2.1 _ hmem) (by decide)

/-- A string is closed in the first part of a text, or in the second if the first part is of one
line. -/
theorem canHold_append_iff :
    CanHold (some q) (u ++ v) ↔ CanHold (some q) u ∨ '\n' ∉ u ∧ CanHold (some q) v := by
  constructor
  · rintro ⟨body, rest, hs, hline⟩
    rcases List.append_eq_append_iff.1 hs with ⟨more, rfl, rfl⟩ | ⟨more, rfl, hmore⟩
    · refine .inr ⟨fun hmem => hline (List.mem_append_left _ hmem), more, rest, rfl, ?_⟩
      exact fun hmem => hline (List.mem_append_right _ hmem)
    · cases more with
      | nil => exact .inr ⟨by simpa using hline, [], rest, hmore.symm, List.not_mem_nil⟩
      | cons c more =>
        obtain ⟨rfl, -⟩ := List.cons.inj hmore
        exact .inl ⟨body, more, rfl, hline⟩
  · rintro (⟨body, rest, rfl, hline⟩ | ⟨hu, body, rest, rfl, hline⟩)
    · exact ⟨body, rest ++ v, by simp, hline⟩
    · exact ⟨u ++ body, rest, by simp, by simp [hu, hline]⟩

/-- On one line a string is closed by any quote of its sort. -/
theorem canHold_iff_mem (hline : '\n' ∉ s) : CanHold (some q) s ↔ q ∈ s := by
  constructor
  · rintro ⟨body, rest, rfl, -⟩
    simp
  · intro hmem
    obtain ⟨body, rest, rfl⟩ := List.append_of_mem hmem
    exact ⟨body, rest, rfl, fun h => hline (List.mem_append_left _ h)⟩

section Exchange

variable {new : String → Option String} {pieces : List Piece}

/-- Exchanged specifiers do not change what the text begins with. -/
theorem head?_textOf_exchange (h : IsCut pieces) :
    (textOf (pieces.map (Piece.exchange new))).head? = (textOf pieces).head? := by
  cases h with
  | nil => rfl
  | passed => rfl
  | imported isLead =>
    obtain ⟨tail, rfl, -⟩ := isLead.exists_cons
    rfl

variable (hnew : ∀ spec, StandsIn spec.toList ((new spec).getD spec).toList)

include hnew

/-- A specifier that can be held in the new text could be held in the old one. -/
theorem canHold_of_exchange (h : IsCut pieces) (hquote : ∀ q ∈ quote, isQuote q = true)
    (hhold : CanHold quote (textOf (pieces.map (Piece.exchange new)))) :
    CanHold quote (textOf pieces) := by
  cases quote with
  | none =>
    obtain ⟨c, hc, hbare⟩ := hhold
    exact ⟨c, head?_textOf_exchange h ▸ hc, hbare⟩
  | some q =>
    have hq : isBareChar q = false := by simp [isBareChar, hquote q rfl]
    induction h with
    | nil => exact hhold
    | passed unseen behind ih =>
      exact canHold_append_iff.2 ((canHold_append_iff.1 hhold).imp_right (And.imp_right ih))
    | @imported lead spec quote pieces isLead isHeld behind ih =>
      -- neither the specifier nor the quote behind it ends the line
      have hline : '\n' ∉ spec.toList ++ quote.toList := by
        simp only [List.mem_append, Option.mem_toList, not_or]
        refine ⟨isHeld.not_mem_newline, fun hmem => ?_⟩
        exact absurd (isLead.isQuote '\n' hmem) (by decide)
      have hmem (hc : q ∈ ((new spec).getD spec).toList ++ quote.toList) :
          q ∈ spec.toList ++ quote.toList :=
        List.mem_append.2 <| (List.mem_append.1 hc).imp_left fun hc =>
          Classical.byContradiction fun hspec => (hnew spec).not_mem hq hspec hc
      simp only [List.map_cons, Piece.exchange, textOf_cons, Piece.text, List.append_assoc] at hhold ⊢
      rw [← List.append_assoc spec.toList, canHold_append_iff, canHold_append_iff,
        canHold_iff_mem hline]
      rw [← List.append_assoc ((new spec).getD spec).toList, canHold_append_iff,
        canHold_append_iff] at hhold
      refine hhold.imp_right (And.imp_right fun hbehind => ?_)
      rcases hbehind with hclosed | ⟨-, hbehind⟩
      · obtain ⟨body, rest, hs, -⟩ := hclosed
        exact .inl (hmem (by rw [hs]; simp))
      · exact .inr ⟨hline, ih hbehind⟩

/-- What stands in front of the next `@` is the same in the new text and the old one. -/
theorem exists_of_textOf_exchange (h : IsCut pieces) {tail rest' : List Char} (htail : '@' ∉ tail)
    (htext : textOf (pieces.map (Piece.exchange new)) = tail ++ rest') :
    ∃ rest, textOf pieces = tail ++ rest ∧ ∀ quote : Option Char, (∀ q ∈ quote, isQuote q = true) →
      CanHold quote rest' → CanHold quote rest := by
  induction h generalizing tail with
  | nil =>
    obtain ⟨rfl, rfl⟩ := List.append_eq_nil_iff.1 htext.symm
    exact ⟨[], rfl, fun _ _ => id⟩
  | @passed c pieces unseen behind ih =>
    cases tail with
    | nil =>
      refine ⟨_, rfl, fun quote hquote hhold => ?_⟩
      rw [List.nil_append] at htext
      exact canHold_of_exchange hnew (.passed unseen behind) hquote (htext ▸ hhold)
    | cons d tail =>
      obtain ⟨rfl, hrest⟩ := List.cons.inj htext
      obtain ⟨rest, hs, hhold⟩ := ih (fun hmem => htail (List.mem_cons_of_mem _ hmem)) hrest
      exact ⟨rest, congrArg (c :: ·) hs, hhold⟩
  | @imported lead spec quote pieces isLead isHeld behind ih =>
    cases tail with
    | nil =>
      refine ⟨_, rfl, fun quote hquote hhold => ?_⟩
      rw [List.nil_append] at htext
      exact canHold_of_exchange hnew (.imported isLead isHeld behind) hquote (htext ▸ hhold)
    | cons d tail =>
      obtain ⟨letters, rfl, -⟩ := isLead.exists_cons
      obtain ⟨rfl, -⟩ := List.cons.inj htext
      exact absurd List.mem_cons_self htail

/-- With exchanged specifiers the pieces are still the ones that a search makes. -/
theorem IsCut.exchange (h : IsCut pieces) : IsCut (pieces.map (Piece.exchange new)) := by
  induction h with
  | nil => exact .nil
  | @passed c pieces unseen behind ih =>
    refine .passed (fun before => ?_) ih
    rw [← Option.not_isSome_iff_eq_none, isSome_styleImport?_iff]
    rintro ⟨lead, quote, rest', hlead, hhold, hs⟩
    obtain ⟨tail, rfl, htail⟩ := hlead.exists_cons
    obtain ⟨rfl, hrest⟩ := List.cons.inj hs
    obtain ⟨rest, hold, hhold'⟩ := exists_of_textOf_exchange hnew behind htail hrest
    have hbefore : (styleImport? before ('@' :: textOf pieces)).isSome = true :=
      isSome_styleImport?_iff.2
        ⟨'@' :: tail, quote, rest, hlead, hhold' quote hlead.isQuote hhold, congrArg _ hold⟩
    rw [unseen] at hbefore
    cases hbefore
  | @imported lead spec quote pieces isLead isHeld behind ih =>
    exact .imported isLead
      ((hnew spec).isHeld isLead.isQuote (head?_textOf_exchange behind) isHeld) ih

end Exchange

end Vendoring.Scan

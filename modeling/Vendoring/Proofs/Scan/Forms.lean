/-
# The forms of imports

Every form of an import has its specifier behind a keyword and covers both, so a
search never sees one form inside another. In a script the last mark in front of
the quote tells the two forms apart: it is the opening parenthesis in a call, and
never a parenthesis in a statement. So no place holds the specifier of both.
-/

import Vendoring.Proofs.Scan.Search
import Vendoring.Scan.Stylesheet

namespace Vendoring.Scan

open Text

variable {s rest body start : List Char}

/-! ## Pieces of forms -/

theorem behind?_eq_some (h : behind? start s = some rest) : s = start ++ rest := by
  unfold behind? at h
  split at h
  · next hstart =>
    obtain ⟨more, rfl⟩ := List.isPrefixOf_iff_prefix.1 hstart
    rw [List.drop_left, Option.some.injEq] at h
    rw [h]
  · simp at h

theorem behindKeyword?_eq_some {keywords : List String} (h : behindKeyword? keywords s = some rest) :
    ∃ keyword ∈ keywords, s = keyword.toList ++ rest := by
  obtain ⟨keyword, hkeyword, h⟩ := List.exists_of_findSome?_eq_some h
  exact ⟨keyword, hkeyword, behind?_eq_some h⟩

theorem behindAnyCase?_eq_some (h : behindAnyCase? start s = some rest) :
    ∃ head, head.map Char.toLower = start ∧ s = head ++ rest := by
  unfold behindAnyCase? at h
  split at h
  · next hstart =>
    obtain rfl := Option.some.inj h
    exact ⟨s.take start.length, hstart, (List.take_append_drop _ _).symm⟩
  · simp at h

/-- A string stands between two quotes of one sort, and neither that quote nor the end of the
line occurs in it. -/
theorem literal?_eq_some_iff : literal? s = some body ↔
    ∃ quote rest, isQuote quote = true ∧ quote ∉ body ∧ '\n' ∉ body ∧
      s = quote :: (body ++ quote :: rest) := by
  constructor
  · intro h
    cases s with
    | nil => simp [literal?] at h
    | cons quote text =>
      rw [literal?] at h
      split at h
      · next hquote =>
        simp only at h
        split at h
        · next hclosed =>
          rw [Option.some.injEq] at h
          rw [h] at hclosed
          obtain ⟨rest, hrest⟩ : ∃ rest, text.drop body.length = quote :: rest := by
            cases hdrop : text.drop body.length with
            | nil => simp [hdrop] at hclosed
            | cons c rest =>
              rw [hdrop] at hclosed
              exact ⟨rest, by simpa using hclosed⟩
          have hbody : text.take body.length = body := by
            rw [← h]
            exact (List.prefix_iff_eq_take.1 (List.takeWhile_prefix _)).symm
          have hinside {c : Char} (hc : c ∈ body) : c ≠ quote ∧ c ≠ '\n' := by
            rw [← h] at hc
            simpa using List.all_eq_true.1 List.all_takeWhile c hc
          refine ⟨quote, rest, hquote, fun hc => (hinside hc).1 rfl, fun hc => (hinside hc).2 rfl, ?_⟩
          rw [← hrest, ← List.take_append_drop body.length text, hbody, List.drop_left]
        · simp at h
      · simp at h
  · rintro ⟨quote, rest, hquote, hclosing, hline, rfl⟩
    have hinside : ∀ c ∈ body, (decide (c ≠ quote) && decide (c ≠ '\n')) = true := by
      intro c hc
      rw [Bool.and_eq_true, decide_eq_true_eq, decide_eq_true_eq]
      exact ⟨fun heq => hclosing (heq ▸ hc), fun heq => hline (heq ▸ hc)⟩
    have htake : (body ++ quote :: rest).takeWhile
        (fun c => decide (c ≠ quote) && decide (c ≠ '\n')) = body := by
      rw [List.takeWhile_append_of_pos hinside, List.takeWhile_cons_of_neg (by simp),
        List.append_nil]
    simp only [literal?, if_pos hquote, htake, List.drop_left, List.head?_cons, if_true]

theorem literal?_eq_some (h : literal? s = some body) :
    ∃ quote rest, isQuote quote = true ∧ s = quote :: (body ++ quote :: rest) := by
  obtain ⟨quote, rest, hquote, -, -, hs⟩ := literal?_eq_some_iff.1 h
  exact ⟨quote, rest, hquote, hs⟩

/-- Whether a character needs no quotes inside `url(`. -/
def isBareChar (c : Char) : Bool :=
  !(isQuote c || isBlank c || c = ')')

theorem not_isBlank_of_isBareChar {c : Char} (h : isBareChar c = true) : isBlank c = false := by
  simp only [isBareChar, Bool.not_eq_true', Bool.or_eq_false_iff] at h
  exact h.1.2

theorem bareText?_eq_some_iff : bareText? s = some body ↔
    ∃ rest, body ≠ [] ∧ (∀ c ∈ body, isBareChar c = true) ∧
      (∀ c ∈ rest.head?, isBareChar c = false) ∧ s = body ++ rest := by
  have hread : bareText? s = some body ↔ body ≠ [] ∧ s.takeWhile isBareChar = body := by
    unfold bareText?
    split
    · next hnil => simp [show s.takeWhile isBareChar = [] from hnil, eq_comm]
    · next hne =>
      rw [Option.some.injEq]
      exact ⟨fun h => ⟨h ▸ hne, h⟩, And.right⟩
  rw [hread]
  constructor
  · rintro ⟨hne, rfl⟩
    refine ⟨s.dropWhile isBareChar, hne, List.all_eq_true.1 List.all_takeWhile, fun c hc => ?_,
      List.takeWhile_append_dropWhile.symm⟩
    have hhead := List.head?_dropWhile_not isBareChar s
    rw [Option.mem_def.1 hc] at hhead
    simpa using hhead
  · rintro ⟨rest, hne, hbare, hrest, rfl⟩
    have hstop : rest.takeWhile isBareChar = [] := by
      cases rest with
      | nil => rfl
      | cons c rest => exact List.takeWhile_cons_of_neg (by simp [hrest c rfl])
    rw [List.takeWhile_append_of_pos hbare, hstop, List.append_nil]
    exact ⟨hne, rfl⟩

theorem exists_blanks (s : List Char) :
    ∃ blanks, blanks.all isBlank = true ∧ s = blanks ++ s.dropWhile isBlank :=
  ⟨s.takeWhile isBlank, List.all_takeWhile, List.takeWhile_append_dropWhile.symm⟩

theorem dropWhile_isBlank_append {u v : List Char} (hblank : u.all isBlank = true)
    (hv : ∀ c ∈ v.head?, isBlank c = false) : (u ++ v).dropWhile isBlank = v := by
  rw [List.dropWhile_append_of_pos (List.all_eq_true.1 hblank)]
  cases v with
  | nil => rfl
  | cons c v => exact List.dropWhile_cons_of_neg (by simp [hv c rfl])

theorem take_front (front u : List Char) (n : Nat) :
    (front ++ u).take ((front ++ u).length - u.length + n) = front ++ u.take n := by
  rw [List.length_append, Nat.add_sub_cancel, List.take_length_add_append]

/-! ## Whole forms -/

/-- A form that consists of its lead, its specifier and a piece behind it. -/
theorem Seen.fits_of_eq {seen : Seen Occurrence} (behind : List Char)
    (hlead : seen.value.lead ≠ []) (hs : s = seen.value.lead ++ seen.value.specifier ++ behind)
    (hsize : seen.value.lead.length + seen.value.specifier.length ≤ seen.size) : seen.Fits s where
  lead_ne := hlead
  covered := by
    rw [hs, List.prefix_take_iff]
    refine ⟨List.prefix_append _ _, ?_⟩
    rw [List.length_append]
    exact hsize

/-- A statement has its specifier behind a keyword, a clause and a quote. -/
theorem statement?_eq_some {seen : Seen Occurrence} (h : statement? s = some seen) :
    ∃ keyword ∈ ["import", "export"], ∃ clause quote, isClause clause = true ∧
      seen.value.lead = keyword.toList ++ clause ++ [quote] ∧ seen.Fits s := by
  unfold statement? at h
  simp only [Option.bind_eq_bind, Option.bind_eq_some_iff] at h
  obtain ⟨rest, hrest, text, htext, h⟩ := h
  obtain ⟨keyword, hkeyword, rfl⟩ := behindKeyword?_eq_some hrest
  split at h
  · next hclause =>
    obtain rfl := Option.some.inj h
    obtain ⟨quote, behind, -, hbehind⟩ := literal?_eq_some htext
    generalize hnames : rest.takeWhile (fun c => !isQuote c) = clause at hclause hbehind
    have hrest : rest = clause ++ quote :: (text ++ quote :: behind) := by
      have hprefix : rest.take clause.length = clause := by
        rw [← hnames]
        exact (List.prefix_iff_eq_take.1 (List.takeWhile_prefix _)).symm
      rw [← hbehind, ← List.take_append_drop clause.length rest, hprefix, List.drop_left]
    have hlead : (keyword.toList ++ rest).take
        ((keyword.toList ++ rest).length - rest.length + clause.length + 1) =
          keyword.toList ++ clause ++ [quote] := by
      rw [Nat.add_assoc, take_front, hrest, List.take_length_add_append]
      simp
    refine ⟨keyword, hkeyword, clause, quote, hclause, hlead, ?_⟩
    refine Seen.fits_of_eq (quote :: behind) ?_ ?_ (Nat.le_succ _)
    · rw [hlead]
      simp
    · rw [hlead, hrest]
      simp
  · simp at h

/-- A call has its specifier behind a parenthesis, white space and a quote. -/
theorem call?_eq_some {seen : Seen Occurrence} (h : call? s = some seen) :
    ∃ before blanks quote, blanks.all isBlank = true ∧
      seen.value.lead = before ++ '(' :: blanks ++ [quote] ∧ seen.Fits s := by
  unfold call? at h
  simp only [Option.bind_eq_bind, Option.bind_eq_some_iff] at h
  obtain ⟨rest, hrest, argument, hargument, text, htext, left, hleft, h⟩ := h
  obtain rfl := Option.some.inj h
  obtain ⟨keyword, -, hkeyword⟩ := behindKeyword?_eq_some hrest
  obtain ⟨before, -, hbefore⟩ := exists_blanks rest
  obtain ⟨blanks, hblanks, hblanksEq⟩ := exists_blanks argument
  generalize argument.dropWhile isBlank = inside at htext hleft hblanksEq
  obtain ⟨quote, behind, -, hinside⟩ := literal?_eq_some htext
  obtain ⟨after, -, hafter⟩ := exists_blanks behind
  have hs : s = (keyword.toList ++ before ++ '(' :: blanks) ++ inside := by
    rw [hkeyword, hbefore, behind?_eq_some hargument, hblanksEq]
    simp
  have hlead : s.take (s.length - inside.length + 1) =
      keyword.toList ++ before ++ '(' :: blanks ++ [quote] := by
    rw [hs, take_front, hinside]
    simp
  have hbehind : behind = after ++ ')' :: left := by
    rw [hinside, show (quote :: (text ++ quote :: behind)).drop (text.length + 2) = behind by simp]
      at hleft
    rw [hafter, behind?_eq_some hleft]
    rfl
  refine ⟨keyword.toList ++ before, blanks, quote, hblanks, hlead, ?_⟩
  refine Seen.fits_of_eq (quote :: behind) ?_ ?_ ?_
  · rw [hlead]
    simp
  · rw [hlead, hs, hinside]
    simp
  · rw [hlead, hs, hinside, hbehind]
    simp
    omega

/-- What stands in front of the specifier of an import in a stylesheet: the keyword, white
space, and a quote or `url(`, behind which white space and a quote may follow. Letters count in
either case. -/
inductive IsLead : List Char → Option Char → Prop
  | quoted {keyword gap : List Char} {quote : Char}
      (keyword_eq : keyword.map Char.toLower = "@import".toList)
      (isBlank_gap : gap.all isBlank = true) (isQuote_quote : isQuote quote = true) :
      IsLead (keyword ++ gap ++ [quote]) (some quote)
  | quotedUrl {keyword gap url gap' : List Char} {quote : Char}
      (keyword_eq : keyword.map Char.toLower = "@import".toList)
      (isBlank_gap : gap.all isBlank = true) (url_eq : url.map Char.toLower = "url(".toList)
      (isBlank_gap' : gap'.all isBlank = true) (isQuote_quote : isQuote quote = true) :
      IsLead (keyword ++ gap ++ url ++ gap' ++ [quote]) (some quote)
  | bareUrl {keyword gap url gap' : List Char}
      (keyword_eq : keyword.map Char.toLower = "@import".toList)
      (isBlank_gap : gap.all isBlank = true) (url_eq : url.map Char.toLower = "url(".toList)
      (isBlank_gap' : gap'.all isBlank = true) :
      IsLead (keyword ++ gap ++ url ++ gap') none

/-- A text is what a specifier covers in front of `rest`: all up to the quote that it stands in,
or all up to the first character that needs a quote. -/
def IsHeld (quote : Option Char) (text rest : List Char) : Prop :=
  match quote with
  | some quote => quote ∉ text ∧ '\n' ∉ text
  | none => text ≠ [] ∧ (∀ c ∈ text, isBareChar c = true) ∧ ∀ c ∈ rest.head?, isBareChar c = false

/-- Capitals stand behind `@` and are 32 places in front of their small letters. -/
theorem eq_or_of_toLower_eq {c d : Char} (h : c.toLower = d) :
    c = d ∨ '@'.toNat < c.toNat ∧ c.toNat + 32 = d.toNat := by
  unfold Char.toLower at h
  split at h
  · next hupper =>
    have hle : 65 ≤ c.toNat ∧ c.toNat ≤ 90 := hupper
    have hval : (c.toNat + 32) % 4294967296 = d.toNat := by simpa using congrArg Char.toNat h
    exact .inr ⟨hle.1, by omega⟩
  · exact .inl h

/-- An import starts with its keyword, and no other one starts inside its lead. -/
theorem IsLead.exists_cons {lead : List Char} {quote : Option Char} (h : IsLead lead quote) :
    ∃ tail, lead = '@' :: tail ∧ '@' ∉ tail := by
  have hlower {text word : List Char} (htext : text.map Char.toLower = word) (hword : '@' ∉ word) :
      '@' ∉ text := fun hmem => hword (htext ▸ List.mem_map_of_mem hmem)
  have hkeyword {keyword : List Char} (h : keyword.map Char.toLower = '@' :: "import".toList) :
      ∃ letters, keyword = '@' :: letters ∧ '@' ∉ letters := by
    obtain ⟨c, letters, rfl, hc, hletters⟩ := List.map_eq_cons_iff.1 h
    refine ⟨letters, ?_, hlower hletters (by decide)⟩
    rcases eq_or_of_toLower_eq hc with rfl | ⟨hlt, heq⟩
    · rfl
    · omega
  have hblank {gap : List Char} (hgap : gap.all isBlank = true) : '@' ∉ gap :=
    fun hmem => absurd (List.all_eq_true.1 hgap _ hmem) (by decide)
  have hmark {quote : Char} (hquote : isQuote quote = true) : '@' ≠ quote := by
    rintro rfl
    cases hquote
  cases h with
  | quoted keyword_eq isBlank_gap isQuote_quote =>
    obtain ⟨letters, rfl, hletters⟩ := hkeyword keyword_eq
    exact ⟨_, rfl, by simp [hletters, hblank isBlank_gap, hmark isQuote_quote]⟩
  | quotedUrl keyword_eq isBlank_gap url_eq isBlank_gap' isQuote_quote =>
    obtain ⟨letters, rfl, hletters⟩ := hkeyword keyword_eq
    exact ⟨_, rfl, by simp [hletters, hblank isBlank_gap, hlower url_eq (by decide),
      hblank isBlank_gap', hmark isQuote_quote]⟩
  | bareUrl keyword_eq isBlank_gap url_eq isBlank_gap' =>
    obtain ⟨letters, rfl, hletters⟩ := hkeyword keyword_eq
    exact ⟨_, rfl, by simp [hletters, hblank isBlank_gap, hlower url_eq (by decide),
      hblank isBlank_gap']⟩

/-- An import of a stylesheet consists of its lead, its specifier and the quote around it. -/
theorem styleImport?_eq_some {before : Option Char} {seen : Seen Occurrence}
    (h : styleImport? before s = some seen) :
    ∃ quote rest, IsLead seen.value.lead quote ∧ IsHeld quote seen.value.specifier rest ∧
      s = seen.value.lead ++ seen.value.specifier ++ quote.toList ++ rest ∧
      seen.size = (seen.value.lead ++ seen.value.specifier ++ quote.toList).length := by
  -- the place of the specifier tells the lead of the form
  have hat (front rest : List Char) {place text : List Char} {quote : Option Char}
      (hs : s = front ++ place)
      (hlead : IsLead front quote) (hheld : IsHeld quote text rest)
      (hplace : place = text ++ quote.toList ++ rest)
      (h : occurrenceAt s place text quote.toList.length = seen) :
      ∃ quote rest, IsLead seen.value.lead quote ∧ IsHeld quote seen.value.specifier rest ∧
        s = seen.value.lead ++ seen.value.specifier ++ quote.toList ++ rest ∧
        seen.size = (seen.value.lead ++ seen.value.specifier ++ quote.toList).length := by
    have hfront : s.take (s.length - place.length) = front := by
      rw [hs, ← Nat.add_zero (_ - _), take_front, List.take_zero, List.append_nil]
    rw [occurrenceAt, hfront] at h
    subst h
    exact ⟨quote, rest, hlead, hheld, by simp [hs, hplace], by simp [Nat.add_assoc]⟩
  unfold styleImport? at h
  simp only [Option.bind_eq_bind, Option.bind_eq_some_iff] at h
  obtain ⟨argument, hargument, h⟩ := h
  obtain ⟨keyword, hkeyword, hs⟩ := behindAnyCase?_eq_some hargument
  obtain ⟨gap, hgap, hblanks⟩ := exists_blanks argument
  generalize argument.dropWhile isBlank = inside at h hblanks
  rw [hblanks, ← List.append_assoc] at hs
  split at h
  · next argument hurl =>
    obtain ⟨url, hlower, rfl⟩ := behindAnyCase?_eq_some hurl
    obtain ⟨gap', hgap', hblanks'⟩ := exists_blanks argument
    generalize argument.dropWhile isBlank = inside at h hblanks'
    rw [hblanks', ← List.append_assoc, ← List.append_assoc] at hs
    split at h
    · next text htext =>
      obtain ⟨quote, rest, hquote, hclosing, hline, rfl⟩ := literal?_eq_some_iff.1 htext
      exact hat (keyword ++ gap ++ url ++ gap' ++ [quote]) rest (by simpa using hs)
        (.quotedUrl hkeyword hgap hlower hgap' hquote) ⟨hclosing, hline⟩ (by simp)
        (Option.some.inj h)
    · obtain ⟨text, htext, h⟩ := Option.bind_eq_some_iff.1 h
      obtain ⟨rest, hne, hbare, hrest, rfl⟩ := bareText?_eq_some_iff.1 htext
      exact hat _ rest hs (.bareUrl hkeyword hgap hlower hgap') ⟨hne, hbare, hrest⟩ (by simp)
        (Option.some.inj h)
  · obtain ⟨text, htext, h⟩ := Option.bind_eq_some_iff.1 h
    obtain ⟨quote, rest, hquote, hclosing, hline, rfl⟩ := literal?_eq_some_iff.1 htext
    exact hat (keyword ++ gap ++ [quote]) rest (by simpa using hs)
      (.quoted hkeyword hgap hquote) ⟨hclosing, hline⟩ (by simp) (Option.some.inj h)

theorem fits_styleImport? {before : Option Char} {seen : Seen Occurrence}
    (h : styleImport? before s = some seen) : seen.Fits s := by
  obtain ⟨quote, rest, hlead, -, hs, hsize⟩ := styleImport?_eq_some h
  obtain ⟨tail, htail, -⟩ := hlead.exists_cons
  refine Seen.fits_of_eq (quote.toList ++ rest) (by simp [htail]) (by simpa using hs) ?_
  rw [hsize, List.length_append, List.length_append]
  exact Nat.le_add_right _ _

/-- A form behind a boundary has the boundary in front of its lead. -/
theorem atBoundary_eq_some {form : List Char → Option (Seen Occurrence)} {before : Option Char}
    {seen : Seen Occurrence} (h : atBoundary form before s = some seen) :
    ∃ boundary rest own, s = boundary ++ rest ∧ form rest = some own ∧
      seen = ⟨own.size + boundary.length,
        { own.value with lead := boundary ++ own.value.lead }⟩ := by
  unfold atBoundary at h
  simp only at h
  split at h
  · next own hdirect =>
    obtain rfl := Option.some.inj h
    split at hdirect
    · exact ⟨[], _, own, rfl, hdirect, rfl⟩
    · simp at hdirect
  · simp at h
  · next c rest _ =>
    split at h
    · obtain ⟨own, hown, rfl⟩ := Option.map_eq_some_iff.1 h
      exact ⟨[c], rest, own, rfl, hown, rfl⟩
    · simp at h

theorem fits_atBoundary {form : List Char → Option (Seen Occurrence)}
    (hform : ∀ s seen, form s = some seen → seen.Fits s) {before : Option Char}
    {seen : Seen Occurrence} (h : atBoundary form before s = some seen) : seen.Fits s := by
  obtain ⟨boundary, rest, own, rfl, hown, rfl⟩ := atBoundary_eq_some h
  obtain ⟨hlead, hcovered⟩ := hform rest own hown
  refine ⟨by simp [hlead], ?_⟩
  rw [Nat.add_comm, List.take_length_add_append, List.append_assoc]
  exact (List.prefix_append_right_inj boundary).2 hcovered

/-! ## Telling calls and statements apart -/

/-- The last character in front of a quote that is no white space. The quote is the last
character of the text. -/
def openingMark (s : List Char) : Option Char :=
  (s.dropLast.reverse.dropWhile isBlank).head?

theorem openingMark_of_call {blanks : List Char} (hblanks : blanks.all isBlank = true)
    (front : List Char) (quote : Char) : openingMark (front ++ '(' :: blanks ++ [quote]) = some '(' := by
  have hdrop : (blanks.reverse ++ '(' :: front.reverse).dropWhile isBlank = '(' :: front.reverse := by
    rw [List.dropWhile_append_of_pos (by simpa using hblanks)]
    exact List.dropWhile_cons_of_neg (by decide)
  rw [openingMark, List.dropLast_concat]
  simp [hdrop]

theorem not_mem_of_all {p : Char → Bool} {c : Char} (hall : s.all p = true) (hc : p c = false) :
    c ∉ s := by
  intro hmem
  rw [List.all_eq_true.1 hall c hmem] at hc
  cases hc

/-- No clause holds a parenthesis. -/
theorem not_mem_of_isClause {clause : List Char} (h : isClause clause = true) : '(' ∉ clause := by
  have hblank : isBlank '(' = false := by decide
  have hname : isClauseChar '(' = false := by decide
  simp only [isClause, Bool.or_eq_true] at h
  rcases h with (hall | htype) | hfrom
  · exact not_mem_of_all hall hblank
  · obtain ⟨blanks, hblanks, heq⟩ := exists_blanks clause
    unfold isTypeMarker at htype
    split at htype
    · next rest hrest =>
      rw [heq, behind?_eq_some hrest, List.mem_append, List.mem_append]
      simp only [Bool.and_eq_true] at htype
      simp [not_mem_of_all hblanks hblank, not_mem_of_all htype.2 hblank]
    · cases htype
  · obtain ⟨blanks, hblanks, heq⟩ := exists_blanks clause.reverse
    unfold isFromClause at hfrom
    split at hfrom
    · next names hnames =>
      rw [← List.mem_reverse, heq, behind?_eq_some hnames, List.mem_append, List.mem_append]
      simp only [Bool.and_eq_true] at hfrom
      simp [not_mem_of_all hblanks hblank, not_mem_of_all hfrom.2 hname]
    · cases hfrom

theorem openingMark_of_statement {keyword : String} (hkeyword : keyword ∈ ["import", "export"])
    {clause : List Char} (hclause : isClause clause = true) (front : List Char) (quote : Char) :
    openingMark (front ++ (keyword.toList ++ clause ++ [quote])) ≠ some '(' := by
  -- the keyword ends in a letter, which stops the blanks
  obtain ⟨letters, hletters, hword⟩ : ∃ letters, keyword.toList.reverse = 't' :: letters ∧
      '(' ∉ keyword.toList := by
    rcases List.mem_cons.1 hkeyword with rfl | hkeyword
    · exact ⟨_, rfl, by decide⟩
    · obtain rfl := List.mem_singleton.1 hkeyword
      exact ⟨_, rfl, by decide⟩
  obtain ⟨blanks, hblanks, hrest⟩ := exists_blanks clause.reverse
  have hdrop : (clause.reverse ++ 't' :: (letters ++ front.reverse)).dropWhile isBlank =
      clause.reverse.dropWhile isBlank ++ 't' :: (letters ++ front.reverse) := by
    rw [List.dropWhile_append]
    split
    · next hempty =>
      rw [List.isEmpty_iff.1 hempty, List.dropWhile_cons_of_neg (by decide), List.nil_append]
    · rfl
  have hmark : openingMark (front ++ (keyword.toList ++ clause ++ [quote])) =
      (clause.reverse.dropWhile isBlank ++ 't' :: (letters ++ front.reverse)).head? := by
    rw [openingMark, ← List.append_assoc, List.dropLast_concat, ← hdrop]
    simp [hletters]
  rw [hmark]
  intro hhead
  cases hlast : clause.reverse.dropWhile isBlank with
  | nil => simp [hlast] at hhead
  | cons c rest =>
    rw [hlast, List.cons_append, List.head?_cons, Option.some.injEq] at hhead
    subst hhead
    have hmem : '(' ∈ clause.reverse.dropWhile isBlank := by simp [hlast]
    exact not_mem_of_isClause hclause (List.mem_reverse.1 ((List.dropWhile_sublist _).mem hmem))

theorem Seen.fits_of_statement {seen : Seen Occurrence} (h : statement? s = some seen) :
    seen.Fits s := by
  obtain ⟨-, -, -, -, -, -, hfits⟩ := statement?_eq_some h
  exact hfits

theorem Seen.fits_of_call {seen : Seen Occurrence} (h : call? s = some seen) : seen.Fits s := by
  obtain ⟨-, -, -, -, -, hfits⟩ := call?_eq_some h
  exact hfits

/-- A specifier in a statement has its mark in the lead of its form, and so has one in
a call. -/
theorem exists_lead {form : List Char → Option (Seen Occurrence)}
    (hform : ∀ s seen, form s = some seen → seen.Fits s) {m : Match}
    (h : m ∈ matchesOf (atBoundary form) s) :
    ∃ front rest own behind, form rest = some own ∧ s = front ++ own.value.lead ++ behind ∧
      m.start = byteLength (front ++ own.value.lead) := by
  obtain ⟨passed, behind, last, seen, rfl, hseen, rfl⟩ := mem_matchesOf h
  obtain ⟨boundary, rest, own, rfl, hown, rfl⟩ := atBoundary_eq_some hseen
  obtain ⟨tail, htail⟩ := (hform rest own hown).covered.trans (List.take_prefix _ _)
  refine ⟨passed ++ boundary, rest, own, own.value.specifier ++ tail, hown, ?_, ?_⟩
  · simp [← htail]
  · simp [Occurrence.toMatch]

/-- A statement and a call have their specifiers at different places. -/
theorem start_ne_start {m n : Match} (hm : m ∈ matchesOf (atBoundary statement?) s)
    (hn : n ∈ matchesOf (atBoundary call?) s) : m.start ≠ n.start := by
  obtain ⟨front, _, statement, behind, hstatement, hs, hstart⟩ :=
    exists_lead (fun _ _ => Seen.fits_of_statement) hm
  obtain ⟨front', _, call, behind', hcall, hs', hstart'⟩ :=
    exists_lead (fun _ _ => Seen.fits_of_call) hn
  obtain ⟨keyword, hkeyword, clause, quote, hclause, hlead, -⟩ := statement?_eq_some hstatement
  obtain ⟨before, blanks, quote', hblanks, hlead', -⟩ := call?_eq_some hcall
  intro heq
  have hfront := eq_of_byteLength_eq (hs.symm.trans hs') (by omega)
  refine openingMark_of_statement hkeyword hclause front quote ?_
  rw [← hlead, hfront, hlead']
  simpa using openingMark_of_call hblanks (front' ++ before) quote'

end Vendoring.Scan

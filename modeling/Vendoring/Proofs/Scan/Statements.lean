/-
# Scripts made of statements

A script that consists of imports, exports and calls is searched twice, once for statements
and once for calls. Each search sees the forms of its own sort where they start and has to
pass over those of the other sort. What it could take for the start of a form there cannot lie
in front of the specifier, for the opening parenthesis tells the two sorts apart; but the text
of a specifier may end in one. Then the quote behind the specifier opens a string that is none,
and what follows up to the next such quote is taken for a specifier. If no specifier ends like
this, a scan returns the specifiers of the statements and nothing else.
-/

import Vendoring.Proofs.Scan.Found
import Vendoring.Proofs.Scan.Order

namespace Vendoring.Scan

open Text

/-! ## Statements and scripts -/

/-- The forms in which a script names a module. -/
inductive Form
  /-- `import names from '…'` -/
  | importFrom (names : List Char)
  /-- `import '…'` -/
  | importOnly
  /-- `export names from '…'` -/
  | exportFrom (names : List Char)
  /-- `require('…')` -/
  | require
  /-- `import('…')` -/
  | importCall

namespace Form

/-- Whether the form is a call. -/
def isCall : Form → Bool
  | require | importCall => true
  | _ => false

/-- The names between the keyword and `from`. -/
def names : Form → List Char
  | importFrom names | exportFrom names => names
  | _ => []

/-- The word that the form starts with. -/
def keyword : Form → String
  | importFrom _ | importOnly | importCall => "import"
  | exportFrom _ => "export"
  | require => "require"

/-- The text between the keyword and the quotes. -/
def clause : Form → List Char
  | importFrom names | exportFrom names => ' ' :: names ++ " from ".toList
  | importOnly => [' ']
  | require | importCall => ['(']

/-- The text in front of the quotes. -/
def lead (form : Form) : List Char :=
  form.keyword.toList ++ form.clause

/-- The text behind the quotes. -/
def closing (form : Form) : List Char :=
  if form.isCall then [')'] else []

end Form

/-- Whether a character may stand in a specifier. -/
def isSpecifierChar (c : Char) : Bool :=
  !isQuote c && !isBlank c

/-- A statement that names a module. -/
structure Statement where
  form : Form
  /-- The quote on both sides of the specifier. -/
  quote : Char
  /-- The text between the quotes. -/
  specifier : List Char
  isQuote_quote : isQuote quote = true
  isClauseChar_names : form.names.all isClauseChar = true
  isSpecifierChar_specifier : specifier.all isSpecifierChar = true

namespace Statement

variable (s : Statement)

/-- The statement as it is written. -/
def text : List Char :=
  s.form.lead ++ s.quote :: (s.specifier ++ s.quote :: s.form.closing)

/-- The specifier behind the text in front of it. -/
def occurrence : Occurrence where
  lead := s.form.lead ++ [s.quote]
  specifier := s.specifier

end Statement

/-- What stands behind the semicolon between two statements. -/
inductive Gap
  | space
  | newline

/-- The character that the gap consists of. -/
def Gap.char : Gap → Char
  | space => ' '
  | newline => '\n'

/-- The text of some statements, each behind a semicolon and a gap. -/
def behindText : List (Gap × Statement) → List Char
  | [] => []
  | (gap, s) :: rest => ';' :: ([gap.char] ++ s.text ++ behindText rest)

/-- The text of a script. The gap in front of its first statement is left out. -/
def scriptText : List (Gap × Statement) → List Char
  | [] => []
  | (_, s) :: rest => s.text ++ behindText rest

/-- The specifiers of the statements behind an offset, at their places. -/
def specifiersBehind (offset : Nat) : List (Gap × Statement) → List (Statement × Match)
  | [] => []
  | (gap, s) :: rest =>
    let start := offset + 1 + byteLength [gap.char]
    (s, s.occurrence.toMatch start) :: specifiersBehind (start + byteLength s.text) rest

/-- The specifiers of the statements of a script, at their places. -/
def specifiersOf : List (Gap × Statement) → List (Statement × Match)
  | [] => []
  | (_, s) :: rest => (s, s.occurrence.toMatch 0) :: specifiersBehind (byteLength s.text) rest

/-! ## How forms start -/

/-- The form of the sort: calls, or statements. -/
def formOf : Bool → List Char → Option (Seen Occurrence)
  | true => call?
  | false => statement?

/-- The text may stand between the start of a form of the sort and its quote. -/
def Opens : Bool → List Char → Prop
  | true, w => ∃ keyword ∈ ["require", "import"], ∃ blanks blanks' : List Char,
      blanks.all isBlank = true ∧ blanks'.all isBlank = true ∧
        w = keyword.toList ++ blanks ++ '(' :: blanks'
  | false, w => ∃ keyword ∈ ["import", "export"], ∃ clause,
      isClause clause = true ∧ w = keyword.toList ++ clause

/-- The text in front of the first quote. -/
def beforeQuote (u : List Char) : List Char :=
  u.takeWhile fun c => !isQuote c

theorem beforeQuote_append {w : List Char} (hw : ∀ c ∈ w, isQuote c = false) {quote : Char}
    (hquote : isQuote quote = true) (rest : List Char) : beforeQuote (w ++ quote :: rest) = w := by
  rw [beforeQuote, List.takeWhile_append_of_pos fun c hc => by simp [hw c hc],
    List.takeWhile_cons_of_neg (by simp [hquote]), List.append_nil]

theorem isQuote_of_isClauseChar {c : Char} (h : isClauseChar c = true) : isQuote c = false := by
  rw [Bool.eq_false_iff]
  intro hquote
  simp only [isQuote, Bool.or_eq_true, decide_eq_true_eq] at hquote
  rcases hquote with rfl | rfl <;> exact absurd h (by decide)

theorem isQuote_of_isBlank {c : Char} (h : isBlank c = true) : isQuote c = false :=
  isQuote_of_isClauseChar (by simp [isClauseChar, h])

/-- No keyword holds a quote. -/
theorem isQuote_of_mem_keyword {keyword : String} (h : keyword ∈ ["import", "export", "require"]) :
    ∀ c ∈ keyword.toList, isQuote c = false := by
  have hword : keyword.toList.all isClauseChar = true := by
    revert keyword
    decide
  exact fun c hc => isQuote_of_isClauseChar (List.all_eq_true.1 hword c hc)

theorem mem_keywords_of_call {keyword : String} (h : keyword ∈ ["require", "import"]) :
    keyword ∈ ["import", "export", "require"] := by
  revert keyword
  decide

/-- What is seen as a form starts like one, up to its first quote. -/
theorem opens_of_formOf {sort : Bool} {u : List Char} {seen : Seen Occurrence}
    (h : formOf sort u = some seen) : Opens sort (beforeQuote u) := by
  cases sort with
  | false =>
    simp only [formOf, statement?, Option.bind_eq_bind, Option.bind_eq_some_iff] at h
    obtain ⟨rest, hrest, text, -, h⟩ := h
    obtain ⟨keyword, hkeyword, rfl⟩ := behindKeyword?_eq_some hrest
    split at h
    · next hclause =>
      refine ⟨keyword, hkeyword, _, hclause, ?_⟩
      have hword := isQuote_of_mem_keyword (List.mem_append_left ["require"] hkeyword)
      rw [beforeQuote, List.takeWhile_append_of_pos fun c hc => by simp [hword c hc]]
    · simp at h
  | true =>
    simp only [formOf, call?, Option.bind_eq_bind, Option.bind_eq_some_iff] at h
    obtain ⟨rest, hrest, argument, hargument, text, htext, -, -, -⟩ := h
    obtain ⟨keyword, hkeyword, rfl⟩ := behindKeyword?_eq_some hrest
    obtain ⟨blanks, hblanks, hrestEq⟩ := exists_blanks rest
    obtain ⟨blanks', hblanks', hargumentEq⟩ := exists_blanks argument
    obtain ⟨quote, behind, hquote, hinside⟩ := literal?_eq_some htext
    refine ⟨keyword, hkeyword, blanks, blanks', hblanks, hblanks', ?_⟩
    have hu : keyword.toList ++ rest =
        (keyword.toList ++ blanks ++ '(' :: blanks') ++ quote :: (text ++ quote :: behind) := by
      rw [hrestEq, behind?_eq_some hargument, hargumentEq, hinside]
      simp
    rw [hu, beforeQuote_append _ hquote]
    intro c hc
    simp only [List.mem_append, List.mem_cons] at hc
    rcases hc with (hc | hc) | rfl | hc
    · exact isQuote_of_mem_keyword (mem_keywords_of_call hkeyword) c hc
    · exact isQuote_of_isBlank (List.all_eq_true.1 hblanks c hc)
    · decide
    · exact isQuote_of_isBlank (List.all_eq_true.1 hblanks' c hc)

/-- A form starts with the first letter of a keyword. -/
theorem Opens.exists_letter {sort : Bool} {w : List Char} (h : Opens sort w) :
    ∃ c rest, w = c :: rest ∧ c ∈ ['i', 'e', 'r'] := by
  have hletter {keyword : String} {rest : List Char}
      (hkeyword : keyword ∈ ["import", "export", "require"]) :
      ∃ c more, keyword.toList ++ rest = c :: more ∧ c ∈ ['i', 'e', 'r'] := by
    simp only [List.mem_cons, List.not_mem_nil, or_false] at hkeyword
    rcases hkeyword with rfl | rfl | rfl <;> exact ⟨_, _, rfl, by decide⟩
  cases sort with
  | false =>
    obtain ⟨keyword, hkeyword, clause, -, rfl⟩ := h
    refine hletter ?_
    revert keyword
    decide
  | true =>
    obtain ⟨keyword, hkeyword, blanks, blanks', -, -, rfl⟩ := h
    rw [List.append_assoc]
    refine hletter ?_
    revert keyword
    decide

/-- Only calls have a parenthesis in front of the quote. -/
theorem Opens.mem_iff {sort : Bool} {w : List Char} (h : Opens sort w) :
    '(' ∈ w ↔ sort = true := by
  cases sort with
  | false =>
    obtain ⟨keyword, hkeyword, clause, hclause, rfl⟩ := h
    have hword : '(' ∉ keyword.toList := by
      revert keyword
      decide
    simp [hword, not_mem_of_isClause hclause]
  | true =>
    obtain ⟨keyword, -, blanks, blanks', -, -, rfl⟩ := h
    simp

theorem not_opens_nil (sort : Bool) : ¬Opens sort [] := by
  intro h
  obtain ⟨c, rest, hcons, -⟩ := h.exists_letter
  cases hcons

/-! ## Seeing a statement -/

theorem literal?_append {quote : Char} (hquote : isQuote quote = true) {body : List Char}
    (hbody : body.all isSpecifierChar = true) (rest : List Char) :
    literal? (quote :: (body ++ quote :: rest)) = some body := by
  have hplain {c : Char} (hc : c ∈ body) := List.all_eq_true.1 hbody c hc
  refine literal?_eq_some_iff.2 ⟨quote, rest, hquote, fun hc => ?_, fun hc => ?_, rfl⟩
  · simpa [isSpecifierChar, hquote] using hplain hc
  · exact absurd (hplain hc) (by decide)

theorem isClause_from {names : List Char} (h : names.all isClauseChar = true) :
    isClause (' ' :: names ++ " from ".toList) = true := by
  have hfrom : isFromClause (' ' :: names ++ " from ".toList) = true := by
    have hreverse : (' ' :: names ++ " from ".toList).reverse =
        ' ' :: ("from".toList.reverse ++ (' ' :: (names.reverse ++ [' ']))) := by
      simp
    rw [isFromClause, hreverse, List.dropWhile_cons_of_pos (by decide)]
    have hdrop : ("from".toList.reverse ++ (' ' :: (names.reverse ++ [' ']))).dropWhile isBlank =
        "from".toList.reverse ++ (' ' :: (names.reverse ++ [' '])) :=
      List.dropWhile_cons_of_neg (by decide)
    rw [hdrop, behind?_append]
    simp only [Bool.and_eq_true, List.all_eq_true, List.mem_cons, List.mem_append,
      List.mem_reverse, List.not_mem_nil, or_false]
    refine ⟨by simp, ?_⟩
    rintro c (rfl | hc | rfl)
    · decide
    · exact List.all_eq_true.1 h c hc
    · decide
  rw [isClause, hfrom, Bool.or_true]

theorem behindKeyword?_statement {keyword : String} (h : keyword ∈ ["import", "export"])
    (rest : List Char) : behindKeyword? ["import", "export"] (keyword.toList ++ rest) = some rest := by
  rcases List.mem_cons.1 h with rfl | h
  · rfl
  · obtain rfl := List.mem_singleton.1 h
    rfl

theorem behindKeyword?_call {keyword : String} (h : keyword ∈ ["require", "import"])
    (rest : List Char) : behindKeyword? ["require", "import"] (keyword.toList ++ rest) = some rest := by
  rcases List.mem_cons.1 h with rfl | h
  · rfl
  · obtain rfl := List.mem_singleton.1 h
    rfl

variable {quote : Char} {body clause rest : List Char}

/-- A keyword, a clause and a string are seen as a statement. -/
theorem statement?_of_clause {keyword : String} (hkeyword : keyword ∈ ["import", "export"])
    (hclause : isClause clause = true) (hnames : ∀ c ∈ clause, isQuote c = false)
    (hquote : isQuote quote = true) (hbody : body.all isSpecifierChar = true) :
    statement? (keyword.toList ++ clause ++ quote :: (body ++ quote :: rest)) =
      some ⟨(keyword.toList ++ clause).length + 1 + body.length + 1,
        ⟨keyword.toList ++ clause ++ [quote], body⟩⟩ := by
  have htake : (clause ++ quote :: (body ++ quote :: rest)).takeWhile (fun c => !isQuote c) = clause :=
    beforeQuote_append hnames hquote _
  have hlead : (keyword.toList ++ (clause ++ quote :: (body ++ quote :: rest))).take
      ((keyword.toList ++ (clause ++ quote :: (body ++ quote :: rest))).length -
        (clause ++ quote :: (body ++ quote :: rest)).length + clause.length + 1) =
      keyword.toList ++ clause ++ [quote] := by
    rw [Nat.add_assoc, take_front, List.take_length_add_append]
    simp
  simp only [statement?, List.append_assoc, behindKeyword?_statement hkeyword, Option.bind_eq_bind,
    Option.bind_some, htake, List.drop_left, literal?_append hquote hbody, hclause, if_true, hlead]
  simp
  omega

/-- A keyword with a string in parentheses is seen as a call. -/
theorem call?_of_literal {keyword : String} (hkeyword : keyword ∈ ["require", "import"])
    (hquote : isQuote quote = true) (hbody : body.all isSpecifierChar = true) :
    call? (keyword.toList ++ '(' :: quote :: (body ++ quote :: ')' :: rest)) =
      some ⟨keyword.toList.length + 1 + 1 + body.length + 1 + 1,
        ⟨keyword.toList ++ ['('] ++ [quote], body⟩⟩ := by
  have hnotBlank : isBlank quote = false := by
    rw [Bool.eq_false_iff]
    exact fun hblank => by simp [isQuote_of_isBlank hblank] at hquote
  have hargument : ('(' :: quote :: (body ++ quote :: ')' :: rest)).dropWhile isBlank =
      ['('] ++ quote :: (body ++ quote :: ')' :: rest) := List.dropWhile_cons_of_neg (by decide)
  have hinside : (quote :: (body ++ quote :: ')' :: rest)).dropWhile isBlank =
      quote :: (body ++ quote :: ')' :: rest) := List.dropWhile_cons_of_neg (by simp [hnotBlank])
  have hbehind : (quote :: (body ++ quote :: ')' :: rest)).drop (body.length + 2) = ')' :: rest := by
    simp
  have hclosed : (')' :: rest).dropWhile isBlank = [')'] ++ rest :=
    List.dropWhile_cons_of_neg (by decide)
  have hlead : (keyword.toList ++ '(' :: quote :: (body ++ quote :: ')' :: rest)).take
      ((keyword.toList ++ '(' :: quote :: (body ++ quote :: ')' :: rest)).length -
        (quote :: (body ++ quote :: ')' :: rest)).length + 1) =
      keyword.toList ++ ['('] ++ [quote] := by
    rw [List.append_cons, take_front]
    simp
  simp only [call?, behindKeyword?_call hkeyword, Option.bind_eq_bind, Option.bind_some, hargument,
    behind?_append, hinside, literal?_append hquote hbody, hbehind, hclosed, hlead]
  simp
  omega

namespace Statement

variable (s : Statement)

/-- An import or export has a keyword and a clause in front of its quotes. -/
theorem isClause_clause (h : s.form.isCall = false) :
    s.form.keyword ∈ ["import", "export"] ∧ isClause s.form.clause = true := by
  have hfrom := isClause_from s.isClauseChar_names
  cases hform : s.form with
  | importFrom names =>
    rw [hform] at hfrom
    exact ⟨by simp [Form.keyword], hfrom⟩
  | importOnly => exact ⟨by decide, by decide⟩
  | exportFrom names =>
    rw [hform] at hfrom
    exact ⟨by simp [Form.keyword], hfrom⟩
  | require => simp [hform, Form.isCall] at h
  | importCall => simp [hform, Form.isCall] at h

/-- A call has a keyword and a parenthesis in front of its quotes. -/
theorem clause_of_isCall (h : s.form.isCall = true) :
    s.form.keyword ∈ ["require", "import"] ∧ s.form.clause = ['('] := by
  cases hform : s.form with
  | require => exact ⟨by decide, rfl⟩
  | importCall => exact ⟨by decide, rfl⟩
  | _ => simp [hform, Form.isCall] at h

/-- No quotes stand in front of the quotes of the specifier. -/
theorem isQuote_of_mem_clause {c : Char} (hc : c ∈ s.form.clause) : isQuote c = false := by
  have hfrom : ∀ c ∈ ' ' :: s.form.names ++ " from ".toList, isQuote c = false := by
    simp only [List.mem_append, List.mem_cons]
    rintro c ((rfl | hc) | hc)
    · decide
    · exact isQuote_of_isClauseChar (List.all_eq_true.1 s.isClauseChar_names c hc)
    · exact isQuote_of_isClauseChar
        (List.all_eq_true.1 (by decide : " from ".toList.all isClauseChar = true) c hc)
  cases hform : s.form with
  | importFrom names | exportFrom names =>
    rw [hform] at hc hfrom
    exact hfrom c hc
  | importOnly | require | importCall =>
    rw [hform] at hc
    obtain rfl := List.mem_singleton.1 hc
    decide

theorem isQuote_of_mem_lead {c : Char} (hc : c ∈ s.form.lead) : isQuote c = false := by
  have hkeyword : s.form.keyword ∈ ["import", "export", "require"] := by
    cases s.form <;> simp [Form.keyword]
  rcases List.mem_append.1 hc with hc | hc
  · exact isQuote_of_mem_keyword hkeyword c hc
  · exact s.isQuote_of_mem_clause hc

theorem isQuote_of_mem_specifier {c : Char} (hc : c ∈ s.specifier) : isQuote c = false := by
  have hplain := List.all_eq_true.1 s.isSpecifierChar_specifier c hc
  rw [isSpecifierChar, Bool.and_eq_true, Bool.not_eq_true'] at hplain
  exact hplain.1

/-- A statement is seen as a form of its own sort, whatever stands behind it. -/
theorem formOf_text (tail : List Char) :
    formOf s.form.isCall (s.text ++ tail) = some ⟨s.text.length, s.occurrence⟩ := by
  cases hcall : s.form.isCall with
  | false =>
    obtain ⟨hkeyword, hclause⟩ := s.isClause_clause hcall
    have hseen := @statement?_of_clause s.quote s.specifier s.form.clause tail s.form.keyword
      hkeyword hclause (fun c => s.isQuote_of_mem_clause) s.isQuote_quote s.isSpecifierChar_specifier
    have hsize : s.text.length = s.form.lead.length + 1 + s.specifier.length + 1 := by
      simp [text, Form.closing, hcall]
      omega
    rw [hsize]
    simpa [formOf, text, occurrence, Form.closing, hcall, Form.lead] using hseen
  | true =>
    obtain ⟨hkeyword, hclause⟩ := s.clause_of_isCall hcall
    have hseen := @call?_of_literal s.quote s.specifier tail s.form.keyword hkeyword
      s.isQuote_quote s.isSpecifierChar_specifier
    have hsize : s.text.length =
        s.form.keyword.toList.length + 1 + 1 + s.specifier.length + 1 + 1 := by
      simp [text, Form.closing, Form.lead, hcall, hclause]
      omega
    rw [hsize]
    simpa [formOf, text, occurrence, Form.closing, hcall, Form.lead, hclause] using hseen

/-- What stands in front of the quotes of a call ends in a parenthesis, and in front of those of
an import or export there is none. -/
theorem mem_suffix_lead {w : List Char} (hw : w <:+ s.form.lead) (hne : w ≠ []) :
    '(' ∈ w ↔ s.form.isCall = true := by
  cases hcall : s.form.isCall with
  | false =>
    obtain ⟨hkeyword, hclause⟩ := s.isClause_clause hcall
    have hword : '(' ∉ s.form.keyword.toList := by
      generalize s.form.keyword = keyword at hkeyword
      revert keyword
      decide
    have hlead : '(' ∉ s.form.lead := fun hmem =>
      (List.mem_append.1 hmem).elim hword (not_mem_of_isClause hclause)
    simpa using fun hmem => hlead (hw.subset hmem)
  | true =>
    obtain ⟨front, hfront⟩ := hw
    rw [Form.lead, (s.clause_of_isCall hcall).2] at hfront
    have hlast := congrArg List.getLast? hfront
    rw [List.getLast?_append, List.getLast?_eq_some_getLast hne, Option.some_or,
      List.getLast?_concat, Option.some.injEq] at hlast
    simpa using hlast ▸ List.getLast_mem hne

end Statement

/-! ## Passing over a statement -/

/-- Whether a form may start behind the character. -/
def opensBehind (before : Option Char) : Bool :=
  before.all isBoundary

theorem opensBehind_of_startsLine {before : Option Char} (h : startsLine before = true) :
    opensBehind before = true := by
  simp only [startsLine, Bool.or_eq_true, decide_eq_true_eq] at h
  rcases h with rfl | rfl <;> decide

variable {form : List Char → Option (Seen Occurrence)} {before : Option Char} {s u : List Char}
  {offset : Nat} {sort : Bool}

theorem atBoundary_eq_none {c : Char} (hhere : opensBehind before = true → form (c :: s) = none)
    (hnext : isBoundary c = true → form s = none) : atBoundary form before (c :: s) = none := by
  have hdirect : (if startsLine before then form (c :: s) else none) = none := by
    split
    · next hstart => exact hhere (opensBehind_of_startsLine hstart)
    · rfl
  simp only [atBoundary, hdirect]
  split
  · next hc => rw [hnext hc, Option.map_none]
  · rfl

theorem atBoundary_behind {c : Char} {seen : Seen Occurrence} (hnone : form (c :: s) = none)
    (hc : isBoundary c = true) (hseen : form s = some seen) : atBoundary form before (c :: s) =
      some ⟨seen.size + 1, { seen.value with lead := c :: seen.value.lead }⟩ := by
  simp only [atBoundary, hnone, ite_self, if_pos hc, hseen, Option.map_some]

/-- A search passes over a text in which no form starts. -/
theorem exists_searchFrom_passed {front : List Char}
    (h : ∀ passed behind, front = passed ++ behind →
      opensBehind (passed.getLast?.or before) = true → form (behind ++ s) = none) :
    ∃ last, searchFrom (atBoundary form) 0 before offset (front ++ s) =
      searchFrom (atBoundary form) 0 last (offset + byteLength front) s := by
  induction front generalizing before offset with
  | nil => exact ⟨before, rfl⟩
  | cons c front ih =>
    have hfirst : atBoundary form before (c :: (front ++ s)) = none :=
      atBoundary_eq_none (fun hopens => h [] (c :: front) rfl hopens)
        fun hc => h [c] front rfl (by simpa [opensBehind] using hc)
    obtain ⟨last, hrest⟩ := @ih (some c) (offset + c.utf8Size) fun passed behind heq hopens => by
      refine h (c :: passed) behind (by rw [heq, List.cons_append]) ?_
      rw [List.getLast?_cons]
      cases hlast : passed.getLast? <;> simpa [hlast] using hopens
    refine ⟨last, ?_⟩
    rw [List.cons_append, searchFrom]
    simp only [hfirst]
    rw [hrest, byteLength_cons, Nat.add_assoc]

/-- What does not start with a letter of a keyword is no form. -/
theorem formOf_eq_none (h : ∀ c ∈ u.head?, c ∉ ['i', 'e', 'r']) : formOf sort u = none := by
  cases hform : formOf sort u with
  | none => rfl
  | some seen =>
    obtain ⟨c, rest, hcons, hc⟩ := (opens_of_formOf hform).exists_letter
    have hprefix : c :: rest <+: u := hcons ▸ List.takeWhile_prefix _
    obtain ⟨more, rfl⟩ := hprefix
    exact absurd hc (h c (by simp))

namespace Statement

variable (t : Statement)

/-- The specifier ends in what would start a form of the other sort in front of a quote. -/
def HidesOpening : Prop :=
  ∃ front start, t.specifier = front ++ start ∧ opensBehind front.getLast? = true ∧
    Opens (!t.form.isCall) start

theorem not_opens_suffix (hsort : t.form.isCall ≠ sort) {w : List Char} (hw : w <:+ t.form.lead) :
    ¬Opens sort w := by
  intro hopens
  by_cases hne : w = []
  · exact not_opens_nil sort (hne ▸ hopens)
  · have hiff := (t.mem_suffix_lead hw hne).symm.trans hopens.mem_iff
    cases sort <;> simp_all

theorem eq_of_mem_closing {c : Char} (h : c ∈ t.form.closing) : c = ')' := by
  unfold Form.closing at h
  split at h
  · exact List.mem_singleton.1 h
  · cases h

/-- A rest of a statement starts in front of the quotes, in the specifier or behind it. -/
theorem split_text {passed behind : List Char} (h : t.text = passed ++ behind) :
    (∃ w, w <:+ t.form.lead ∧
        behind = w ++ t.quote :: (t.specifier ++ t.quote :: t.form.closing)) ∨
      (∃ front start, t.specifier = front ++ start ∧ passed = t.form.lead ++ t.quote :: front ∧
        behind = start ++ t.quote :: t.form.closing) ∨
      behind <:+ t.form.closing := by
  rcases List.append_eq_append_iff.1 h with ⟨onward, rfl, hquoted⟩ | ⟨w, hlead, rfl⟩
  · cases onward with
    | nil => exact .inl ⟨[], List.nil_suffix, hquoted.symm⟩
    | cons q front =>
      obtain ⟨rfl, hinside⟩ := List.cons.inj hquoted
      rcases List.append_eq_append_iff.1 hinside with ⟨onward, rfl, hclosed⟩ | ⟨start, hspec, rfl⟩
      · cases onward with
        | nil => exact .inr (.inl ⟨t.specifier, [], by simp, by simp, hclosed.symm⟩)
        | cons q onward => exact .inr (.inr ⟨onward, (List.cons.inj hclosed).2.symm⟩)
      · exact .inr (.inl ⟨front, start, hspec, rfl, rfl⟩)
  · exact .inl ⟨w, ⟨passed, hlead.symm⟩, rfl⟩

/-- The search for the other sort passes over a statement, if the specifier does not hide
anything from it. -/
theorem exists_searchFrom_other (hsort : t.form.isCall ≠ sort) (hhides : ¬t.HidesOpening)
    {gap tail : List Char} (hgap : ∀ c ∈ gap, c ∉ ['i', 'e', 'r'])
    (htail : ∀ c ∈ tail.head?, c = ';') :
    ∃ last, searchFrom (atBoundary (formOf sort)) 0 before offset (gap ++ t.text ++ tail) =
      searchFrom (atBoundary (formOf sort)) 0 last (offset + byteLength (gap ++ t.text)) tail := by
  refine exists_searchFrom_passed fun passed behind heq hopens => ?_
  -- a form behind text without quotes would start with that text
  have hnone {w rest : List Char} (hw : ¬Opens sort w) (hquotes : ∀ c ∈ w, isQuote c = false) :
      formOf sort (w ++ t.quote :: rest) = none := by
    cases hform : formOf sort (w ++ t.quote :: rest) with
    | none => rfl
    | some seen =>
      have hopening := opens_of_formOf hform
      rw [beforeQuote_append hquotes t.isQuote_quote] at hopening
      exact absurd hopening hw
  rcases List.append_eq_append_iff.1 heq with ⟨onward, rfl, htext⟩ | ⟨left, hleft, rfl⟩
  · rcases t.split_text htext with ⟨w, hw, rfl⟩ | ⟨front, start, hspecifier, rfl, rfl⟩ | hclosing
    · rw [List.append_assoc]
      exact hnone (t.not_opens_suffix hsort hw) fun c hc => t.isQuote_of_mem_lead (hw.subset hc)
    · rw [List.append_assoc]
      refine hnone (fun hopening => hhides ⟨front, start, hspecifier, ?_, ?_⟩) fun c hc =>
        t.isQuote_of_mem_specifier (by simp [hspecifier, hc])
      · cases hlast : front.getLast? with
        | none => rfl
        | some c => simpa [hlast, List.getLast?_cons] using hopens
      · rwa [show (!t.form.isCall) = sort by cases sort <;> simp_all]
    · refine formOf_eq_none fun c hc => ?_
      cases behind with
      | nil => exact htail c hc ▸ by decide
      | cons d behind =>
        obtain rfl : d = c := Option.some.inj hc
        exact t.eq_of_mem_closing (hclosing.subset List.mem_cons_self) ▸ by decide
  · cases left with
    | nil =>
      rw [List.nil_append, text, List.append_assoc]
      exact hnone (t.not_opens_suffix hsort List.suffix_rfl) fun c => t.isQuote_of_mem_lead
    | cons c left =>
      refine formOf_eq_none fun d hd => hgap d ?_
      obtain rfl : c = d := Option.some.inj hd
      simp [hleft]

/-- The search for its own sort sees a statement where it starts. -/
theorem atBoundary_text {gap : List Char} (tail : List Char)
    (hgap : gap = [] ∧ before = none ∨ ∃ c : Gap, gap = [c.char]) :
    atBoundary (formOf t.form.isCall) before (gap ++ t.text ++ tail) =
      some ⟨(gap ++ t.text).length,
        { t.occurrence with lead := gap ++ t.occurrence.lead }⟩ := by
  rcases hgap with ⟨rfl, rfl⟩ | ⟨c, rfl⟩
  · have hseen := t.formOf_text tail
    simp only [List.nil_append, atBoundary, startsLine, hseen]
    rfl
  · have hnone : formOf t.form.isCall (c.char :: (t.text ++ tail)) = none :=
      formOf_eq_none (by cases c <;> simp [Gap.char])
    have hboundary : isBoundary c.char = true := by cases c <;> decide
    have hbehind : [c.char] ++ t.text ++ tail = c.char :: (t.text ++ tail) := rfl
    rw [hbehind, atBoundary_behind hnone hboundary (t.formOf_text tail)]
    rfl

/-- What a search for a sort finds in a statement is the specifier, if the statement is of the
sort. -/
theorem exists_map_searchFrom (hhides : ¬t.HidesOpening) {gap tail : List Char}
    (hgap : gap = [] ∧ before = none ∨ ∃ c : Gap, gap = [c.char])
    (htail : ∀ c ∈ tail.head?, c = ';') :
    ∃ last, (searchFrom (atBoundary (formOf sort)) 0 before offset (gap ++ t.text ++ tail)).map
        (fun x => x.2.toMatch x.1) =
      (if t.form.isCall = sort then [t.occurrence.toMatch (offset + byteLength gap)] else []) ++
        (searchFrom (atBoundary (formOf sort)) 0 last (offset + byteLength (gap ++ t.text)) tail).map
          fun x => x.2.toMatch x.1 := by
  by_cases hsort : t.form.isCall = sort
  · subst hsort
    have hne : gap ++ t.text ≠ [] := by simp [text]
    obtain ⟨last, hlast⟩ := exists_searchFrom_seen (t.atBoundary_text tail hgap) rfl hne
    refine ⟨last, ?_⟩
    rw [hlast, if_pos rfl, List.map_cons]
    simp [Occurrence.toMatch, Nat.add_assoc]
  · have hletters : ∀ c ∈ gap, c ∉ ['i', 'e', 'r'] := by
      rcases hgap with ⟨rfl, -⟩ | ⟨c, rfl⟩
      · simp
      · cases c <;> simp [Gap.char]
    obtain ⟨last, hlast⟩ := t.exists_searchFrom_other hsort hhides hletters htail
    exact ⟨last, by rw [hlast, if_neg hsort, List.nil_append]⟩

end Statement

/-! ## Searching a script -/

variable {script rest : List (Gap × Statement)}

theorem eq_of_mem_head?_behindText : ∀ c ∈ (behindText rest).head?, c = ';' := by
  cases rest with
  | nil => simp [behindText]
  | cons x rest => simp [behindText, eq_comm]

/-- Behind the first statement a search for a sort finds the specifiers of that sort. -/
theorem map_searchFrom_behindText (hhides : ∀ x ∈ rest, ¬x.2.HidesOpening) (before : Option Char)
    (offset : Nat) :
    (searchFrom (atBoundary (formOf sort)) 0 before offset (behindText rest)).map
        (fun x => x.2.toMatch x.1) =
      ((specifiersBehind offset rest).filter fun x => x.1.form.isCall = sort).map (·.2) := by
  induction rest generalizing before offset with
  | nil => rfl
  | cons x rest ih =>
    obtain ⟨gap, t⟩ := x
    have hsemicolon : atBoundary (formOf sort) before
        (';' :: ([gap.char] ++ t.text ++ behindText rest)) = none :=
      atBoundary_eq_none (fun _ => formOf_eq_none (by simp))
        fun _ => formOf_eq_none (by cases gap <;> simp [Gap.char])
    obtain ⟨last, hlast⟩ := @Statement.exists_map_searchFrom (some ';') (offset + 1) sort t
      (hhides _ List.mem_cons_self) [gap.char] (behindText rest) (.inr ⟨gap, rfl⟩)
      eq_of_mem_head?_behindText
    rw [behindText, searchFrom]
    simp only [hsemicolon]
    rw [show ';'.utf8Size = 1 from rfl, hlast,
      ih (fun x hx => hhides x (List.mem_cons_of_mem _ hx)), specifiersBehind, List.filter_cons,
      byteLength_append, ← Nat.add_assoc]
    by_cases hsort : t.form.isCall = sort <;> simp [hsort]

theorem matchesOf_scriptText (hhides : ∀ x ∈ script, ¬x.2.HidesOpening) :
    matchesOf (atBoundary (formOf sort)) (scriptText script) =
      ((specifiersOf script).filter fun x => x.1.form.isCall = sort).map (·.2) := by
  cases script with
  | nil => rfl
  | cons x rest =>
    obtain ⟨gap, t⟩ := x
    obtain ⟨last, hlast⟩ := @Statement.exists_map_searchFrom none 0 sort t
      (hhides _ List.mem_cons_self) [] (behindText rest) (.inl ⟨rfl, rfl⟩)
      eq_of_mem_head?_behindText
    rw [List.nil_append] at hlast
    rw [matchesOf, search, scriptText, hlast,
      map_searchFrom_behindText fun x hx => hhides x (List.mem_cons_of_mem _ hx)]
    by_cases hsort : t.form.isCall = sort <;> simp [specifiersOf, hsort]

/-! ## Their order -/

theorem Statement.toMatch_spans (t : Statement) (offset : Nat) :
    offset < (t.occurrence.toMatch offset).start ∧
      (t.occurrence.toMatch offset).start ≤ (t.occurrence.toMatch offset).stop ∧
      (t.occurrence.toMatch offset).stop ≤ offset + byteLength t.text := by
  have hpos := t.quote.utf8Size_pos
  simp only [Occurrence.toMatch, occurrence, text, byteLength_append, byteLength_cons,
    byteLength_nil]
  omega

theorem pairwise_specifiersBehind (rest : List (Gap × Statement)) (offset : Nat) :
    ((specifiersBehind offset rest).map (·.2)).Pairwise Match.Precedes ∧
      ∀ m ∈ (specifiersBehind offset rest).map (·.2), offset < m.start := by
  induction rest generalizing offset with
  | nil => exact ⟨.nil, by simp [specifiersBehind]⟩
  | cons x rest ih =>
    obtain ⟨gap, t⟩ := x
    obtain ⟨hpairs, hbehind⟩ := ih (offset + 1 + byteLength [gap.char] + byteLength t.text)
    obtain ⟨hstart, hle, hstop⟩ := t.toMatch_spans (offset + 1 + byteLength [gap.char])
    simp only [specifiersBehind, List.map_cons, List.pairwise_cons, List.mem_cons]
    refine ⟨⟨fun n hn => ?_, hpairs⟩, ?_⟩
    · have hn := hbehind n hn
      exact ⟨by omega, by omega⟩
    · rintro m (rfl | hm)
      · omega
      · have := hbehind m hm
        omega

theorem pairwise_specifiersOf (script : List (Gap × Statement)) :
    ((specifiersOf script).map (·.2)).Pairwise Match.Precedes := by
  cases script with
  | nil => exact .nil
  | cons x rest =>
    obtain ⟨gap, t⟩ := x
    obtain ⟨hpairs, hbehind⟩ := pairwise_specifiersBehind rest (byteLength t.text)
    obtain ⟨-, hle, hstop⟩ := t.toMatch_spans 0
    simp only [specifiersOf, List.map_cons, List.pairwise_cons]
    refine ⟨fun n hn => ?_, hpairs⟩
    have hn := hbehind n hn
    exact ⟨by omega, by omega⟩

/-- A script of statements is scanned to their specifiers, if none of these ends in what would
start a form of the other sort. -/
theorem scanScript_scriptText (hhides : ∀ x ∈ script, ¬x.2.HidesOpening) :
    scanScript (scriptText script) = (specifiersOf script).map (·.2) := by
  let found := matchesOf (atBoundary statement?) (scriptText script) ++
    matchesOf (atBoundary call?) (scriptText script)
  have hpairs := pairwise_specifiersOf script
  -- the two searches share the specifiers out among them
  have hfound : found.Perm ((specifiersOf script).map (·.2)) := by
    have hstatements : matchesOf (atBoundary statement?) (scriptText script) = _ :=
      @matchesOf_scriptText false script hhides
    have hcalls : matchesOf (atBoundary call?) (scriptText script) = _ :=
      @matchesOf_scriptText true script hhides
    have hshared := List.filter_append_perm (fun x : Statement × Match => x.1.form.isCall = false)
      (specifiersOf script)
    simp only [found, hstatements, hcalls, ← List.map_append]
    refine List.Perm.map _ ?_
    simpa using hshared
  have hdistinct : found.Pairwise fun m n => m.start ≠ n.start :=
    (hfound.pairwise_iff fun h => Ne.symm h).2 (hpairs.imp fun h => Nat.ne_of_lt h.start_lt)
  have hsorted : sortBy (fun a b => a.start ≤ b.start) found = (specifiersOf script).map (·.2) :=
    List.Perm.eq_of_pairwise (fun m n _ _ hmn hnm => absurd hmn (Nat.lt_asymm hnm))
      (pairwise_start_sortBy hdistinct) (hpairs.imp fun h => h.start_lt)
      ((sortBy_perm found).trans hfound)
  rw [scanScript]
  exact (congrArg dropOverlaps hsorted).trans (dropOverlaps_of_pairwise hpairs)

/-- A call of `./import`, and an import of `b` behind it. -/
def hidingScript : List (Gap × Statement) :=
  [(.space, ⟨.require, '\'', "./import".toList, by decide, by decide, by decide⟩),
    (.space, ⟨.importOnly, '\'', ['b'], by decide, by decide, by decide⟩)]

/-- Without the condition a scan may take what stands between two statements for a specifier, and
lose the one of the second. -/
theorem exists_scanScript_ne : scriptText hidingScript = "require('./import'); import 'b'".toList ∧
    scanScript (scriptText hidingScript) = [⟨9, 17, "./import"⟩, ⟨18, 28, "); import "⟩] ∧
    (specifiersOf hidingScript).map (·.2) = [⟨9, 17, "./import"⟩, ⟨29, 30, "b"⟩] := by
  decide +kernel

end Vendoring.Scan

/-
# Every declaration is found

A manifest is read as a document to learn what it declares, and searched for marks to change
its declarations in place. The search knows strings, colons and braces only. It finds all
that the reader does if the key of the block is written without escapes and nothing but
strings is declared: then the strings of the block come in pairs, and the search never loses
step with them.
-/

import Vendoring.Proofs.Scan.Found

namespace Vendoring

open Json (IsWritten isSpace)

/-! ## Members that are strings -/

namespace Json.Member

variable {m : Member} {depth : Nat} {s left front raw : List Char} {text : String}

/-- The value of the member is a string, and the characters between its quotes stand behind
`front` in the text. -/
structure IsStringAt (m : Member) (s front raw : List Char) (text : String) : Prop where
  value_eq : m.value = .string text
  isWritten : IsWritten raw text
  placed : ∃ passed gap behind, s = passed ++ m.text ∧ gap.all isSpace = true ∧
    m.text = gap ++ '"' :: (raw ++ '"' :: behind) ∧ front = passed ++ gap ++ ['"']

theorem IsStringAt.append_left (h : m.IsStringAt s front raw text) (u : List Char) :
    m.IsStringAt (u ++ s) (u ++ front) raw text := by
  obtain ⟨passed, gap, behind, rfl, hgap, htext, rfl⟩ := h.placed
  exact ⟨h.value_eq, h.isWritten, u ++ passed, gap, behind, by simp, hgap, htext, by simp⟩

/-- A member that is a string is a pair of strings. -/
theorem StartsAt.exists_isStringAt (h : m.StartsAt depth s left)
    (hstring : m.value.string?.isSome = true) :
    ∃ gap gap' gap'' raw text, gap.all isSpace = true ∧ gap'.all isSpace = true ∧
      gap''.all isSpace = true ∧
      s = gap ++ (Scan.keyText m.raw gap' gap'' ++ '"' :: (raw ++ '"' :: left)) ∧
      m.IsStringAt s (gap ++ Scan.keyText m.raw gap' gap'' ++ ['"']) raw text := by
  obtain ⟨gap, gap', hgap, hgap', hs⟩ := h.text_eq
  obtain ⟨text, hvalue⟩ : ∃ text, m.value = .string text := by
    cases hm : m.value with
    | string text => exact ⟨text, rfl⟩
    | _ => simp [hm, Json.string?] at hstring
  have hread := h.value_eq
  rw [hvalue] at hread
  obtain ⟨behind, hquote, hbehind⟩ := token_of_valueAt? hread
  obtain ⟨raw, rfl, -, hwritten⟩ := readString_eq_some hbehind
  obtain ⟨gap'', hgap'', htext⟩ := exists_space m.text
  rw [hquote] at htext
  refine ⟨gap, gap', gap'', raw, text, hgap, hgap', hgap'', ?_, hvalue, hwritten,
    gap ++ Scan.keyText m.raw gap' [], gap'', left, ?_, hgap'', htext, ?_⟩
  · rw [hs, htext]
    simp [Scan.keyText]
  · rw [hs]
    simp [Scan.keyText]
  · simp [Scan.keyText]

end Json.Member

namespace Scan

open Json (Member readMembers membersFrom)

variable {s left raw : List Char} {depth n : Nat}

/-! ## Through a block of strings -/

/-- The text has no braces outside of its strings, and no string is left open. -/
def IsBraceless (front : List Char) : Prop :=
  ∀ depth rest, closingBrace? .code depth (front ++ rest) =
    (closingBrace? .code depth rest).map (· + front.length)

theorem isBraceless_nil : IsBraceless [] := by
  intro depth rest
  simp

theorem IsBraceless.append {front behind : List Char} (h : IsBraceless front)
    (h' : IsBraceless behind) : IsBraceless (front ++ behind) := by
  intro depth rest
  rw [List.append_assoc, h, h', Option.map_map, List.length_append]
  congr 1
  funext n
  simp only [Function.comp_apply]
  omega

theorem isBraceless_of_forall {front : List Char}
    (h : ∀ c ∈ front, c ≠ '"' ∧ c ≠ '\x7b' ∧ c ≠ '\x7d') : IsBraceless front := by
  induction front with
  | nil => exact isBraceless_nil
  | cons c front ih =>
    obtain ⟨hquote, hopen, hclose⟩ := h c List.mem_cons_self
    intro depth rest
    rw [List.cons_append, closingBrace?]
    simp only [if_neg hquote, if_neg hopen, if_neg hclose]
    rw [ih fun d hd => h d (List.mem_cons_of_mem c hd), Option.map_map]
    rfl

theorem isBraceless_singleton {c : Char} (h : c ≠ '"' ∧ c ≠ '\x7b' ∧ c ≠ '\x7d') :
    IsBraceless [c] :=
  isBraceless_of_forall (List.forall_mem_singleton.2 h)

theorem isBraceless_space {gap : List Char} (hgap : gap.all isSpace = true) : IsBraceless gap := by
  apply isBraceless_of_forall
  intro c hc
  have hspace := List.all_eq_true.1 hgap c hc
  refine ⟨?_, ?_, ?_⟩ <;> rintro rfl <;> exact absurd hspace (by decide)

/-- Inside a string nothing but its end is looked for. -/
theorem closingBrace?_of_open {state : BraceState} {front : List Char} {depth : Nat}
    (hopen : ∀ p, p <+: front → p.foldl BraceState.next state ≠ .code) (rest : List Char) :
    closingBrace? state depth (front ++ rest) =
      (closingBrace? (front.foldl BraceState.next state) depth rest).map (· + front.length) := by
  induction front generalizing state with
  | nil => simp
  | cons c front ih =>
    have hrest := @ih (state.next c) fun p hp => hopen (c :: p) (List.cons_prefix_cons.2 ⟨rfl, hp⟩)
    have hstep : closingBrace? state depth (c :: (front ++ rest)) =
        (closingBrace? (state.next c) depth (front ++ rest)).map (· + 1) := by
      cases state with
      | code => exact absurd rfl (hopen [] List.nil_prefix)
      | string => rfl
      | escape => rfl
    rw [List.cons_append, hstep, hrest, Option.map_map]
    rfl

theorem IsRaw.isBraceless (h : IsRaw raw) : IsBraceless ('"' :: (raw ++ ['"'])) := by
  intro depth rest
  have hquote (u : List Char) : closingBrace? .code depth ('"' :: u) =
      (closingBrace? .string depth u).map (· + 1) := rfl
  have hend (u : List Char) : closingBrace? .string depth ('"' :: u) =
      (closingBrace? .code depth u).map (· + 1) := rfl
  rw [List.cons_append, List.append_assoc, hquote, closingBrace?_of_open h.open_of_prefix,
    h.stays_open, List.singleton_append, hend, Option.map_map, Option.map_map]
  congr 1
  funext n
  simp only [Function.comp_apply, List.length_cons, List.length_append, List.length_nil]
  omega

/-! ## From pair to pair -/

theorem stringPair?_of_ne {c : Char} (hc : c ≠ '"') (before : Option Char) (rest : List Char) :
    stringPair? before (c :: rest) = none := by
  have hopen : behind? ['"'] (c :: rest) = none := by
    simp [behind?, hc.symm]
  simp [stringPair?, hopen]

/-- No pair starts in white space or at a comma. -/
theorem stringPair?_of_mem {gap : List Char} (hgap : gap.all isSpace = true) :
    ∀ c ∈ gap ++ [','], ∀ before rest, stringPair? before (c :: rest) = none := by
  intro c hc before rest
  apply stringPair?_of_ne
  rintro rfl
  rcases List.mem_append.1 hc with hc | hc
  · exact absurd (List.all_eq_true.1 hgap _ hc) (by decide)
  · exact absurd (List.mem_singleton.1 hc) (by decide)

/-- The text of a key and a value that are strings. -/
def pairText (key gap gap' raw : List Char) : List Char :=
  keyText key gap gap' ++ '"' :: (raw ++ ['"'])

section Pairs

variable {key text : String} {raw raw' gap gap' gap'' : List Char}
  (hgap : gap.all isSpace = true) (hgap' : gap'.all isSpace = true)
  (hgap'' : gap''.all isSpace = true) (hkey : IsWritten raw key) (htext : IsWritten raw' text)
include hgap hgap' hgap'' hkey htext

/-- A pair behind white space is the next that is found. -/
theorem exists_searchFrom_pair (before : Option Char) (offset : Nat) (rest : List Char) :
    ∃ last, searchFrom stringPair? 0 before offset (gap ++ (pairText raw gap' gap'' raw' ++ rest)) =
      (offset + byteLength gap, ⟨keyText raw gap' gap'' ++ ['"'], raw'⟩) ::
        searchFrom stringPair? 0 last (offset + byteLength (gap ++ pairText raw gap' gap'' raw'))
          rest := by
  obtain ⟨last, hlast⟩ := @exists_searchFrom_none (pairText raw gap' gap'' raw' ++ rest) offset
    before _ stringPair? gap fun c hc => stringPair?_of_mem hgap c (List.mem_append_left _ hc)
  have hseen := stringPair?_of_isWritten hgap' hgap'' hkey htext last rest
  rw [show keyText raw gap' gap'' ++ '"' :: (raw' ++ '"' :: rest) =
    pairText raw gap' gap'' raw' ++ rest by simp [pairText]] at hseen
  obtain ⟨next, hnext⟩ := @exists_searchFrom_seen rest (offset + byteLength gap) last _ stringPair?
    (pairText raw gap' gap'' raw') _ hseen (by simp [pairText]; omega) (by simp [pairText, keyText])
  refine ⟨next, ?_⟩
  rw [hlast, hnext, byteLength_append, ← Nat.add_assoc]

theorem isBraceless_pair : IsBraceless (gap ++ pairText raw gap' gap'' raw') := by
  have hcolon : IsBraceless [':'] := isBraceless_singleton (by decide)
  have h := (isBraceless_space hgap).append <| hkey.isRaw.isBraceless.append <|
    (isBraceless_space hgap').append <| hcolon.append <|
      (isBraceless_space hgap'').append htext.isRaw.isBraceless
  simpa [pairText, keyText] using h

end Pairs

/-- The search in the text finds the string that the value of the member is written as. -/
def FindsValue (m : Member) (s inside : List Char) : Prop :=
  ∃ front raw text, m.IsStringAt s front raw text ∧
    ∀ before offset, ∃ x ∈ searchFrom stringPair? 0 before offset inside,
      x.2.specifier = raw ∧ x.1 + byteLength x.2.lead = offset + byteLength front

/-- What the search finds behind the text is found when it starts in front of the text. -/
def IsOverrun (front : List Char) : Prop :=
  ∀ inside before offset, ∃ last, ∀ x ∈ searchFrom stringPair? 0 last (offset + byteLength front)
    inside, x ∈ searchFrom stringPair? 0 before offset (front ++ inside)

theorem IsOverrun.append {front behind : List Char} (h : IsOverrun front) (h' : IsOverrun behind) :
    IsOverrun (front ++ behind) := by
  intro inside before offset
  obtain ⟨middle, hmiddle⟩ := h (behind ++ inside) before offset
  obtain ⟨last, hlast⟩ := h' inside middle (offset + byteLength front)
  refine ⟨last, fun x hx => ?_⟩
  rw [byteLength_append, ← Nat.add_assoc] at hx
  rw [List.append_assoc]
  exact hmiddle x (hlast x hx)

theorem isOverrun_separator {gap : List Char} (hgap : gap.all isSpace = true) :
    IsOverrun (gap ++ [',']) := by
  intro inside before offset
  obtain ⟨last, hlast⟩ := @exists_searchFrom_none inside offset before _ stringPair?
    (gap ++ [',']) (stringPair?_of_mem hgap)
  exact ⟨last, fun x hx => hlast ▸ hx⟩

/-- What a search finds behind a text that it passes over is found in the whole text. -/
theorem FindsValue.append_left {m : Member} {inside front : List Char} (h : FindsValue m s inside)
    (hfront : IsOverrun front) : FindsValue m (front ++ s) (front ++ inside) := by
  obtain ⟨lead, raw, text, hat, hfind⟩ := h
  refine ⟨front ++ lead, raw, text, hat.append_left front, fun before offset => ?_⟩
  obtain ⟨last, hlast⟩ := hfront inside before offset
  obtain ⟨x, hx, hraw, hplace⟩ := hfind last (offset + byteLength front)
  exact ⟨x, hlast x hx, hraw, by rw [hplace, byteLength_append, Nat.add_assoc]⟩

/-- The text starts with a member whose value is a string. The search finds that string, and
then goes on behind the member. -/
structure StartsWithPair (m : Member) (s first rest : List Char) : Prop where
  text_eq : s = first ++ rest
  isBraceless : IsBraceless first
  isOverrun : IsOverrun first
  findsValue : ∀ inside, FindsValue m s (first ++ inside)

theorem exists_startsWithPair {m : Member} {rest : List Char}
    (hm : Json.memberAt? depth s = some (m, rest)) (hstring : m.value.string?.isSome = true) :
    ∃ first, StartsWithPair m s first rest := by
  have hstarts := Json.startsAt_of_memberAt? hm
  obtain ⟨gap, gap', gap'', raw, text, hgap, hgap', hgap'', hs, hat⟩ :=
    hstarts.exists_isStringAt hstring
  have hsearch := exists_searchFrom_pair hgap hgap' hgap'' hstarts.isWritten hat.isWritten
  refine ⟨gap ++ pairText m.raw gap' gap'' raw,
    { text_eq := by
        rw [hs]
        simp [pairText]
      isBraceless := isBraceless_pair hgap hgap' hgap'' hstarts.isWritten hat.isWritten
      isOverrun := fun inside before offset => ?_
      findsValue := fun inside => ⟨_, raw, text, hat, fun before offset => ?_⟩ }⟩
  · obtain ⟨last, hlast⟩ := hsearch before offset inside
    rw [← List.append_assoc] at hlast
    exact ⟨last, fun x hx => hlast ▸ List.mem_cons_of_mem _ hx⟩
  · obtain ⟨last, hlast⟩ := hsearch before offset inside
    rw [List.append_assoc, hlast]
    refine ⟨_, List.mem_cons_self, rfl, ?_⟩
    simp only [byteLength_append]
    omega

/-- The members of a block of strings are found, and the block ends behind them. -/
theorem findsValue_of_readMembers {members : List (String × Json)}
    (h : readMembers n depth s = some (members, left))
    (hstrings : ∀ m ∈ membersFrom n depth s, m.value.string?.isSome = true) :
    ∃ inside, s = inside ++ '\x7d' :: left ∧ IsBraceless inside ∧
      ∀ m ∈ membersFrom n depth s, FindsValue m s inside := by
  induction n generalizing s members left with
  | zero => simp [readMembers] at h
  | succ n ih =>
    rw [Json.readMembers_succ] at h
    obtain ⟨⟨⟨key, value⟩, rest⟩, hmember, h⟩ := Option.bind_eq_some_iff.1 h
    obtain ⟨m, hm, rfl, rfl⟩ := Json.memberAt?_of_readMember hmember
    simp only [membersFrom, hm] at hstrings ⊢
    obtain ⟨first, hfirst⟩ := exists_startsWithPair hm (hstrings m List.mem_cons_self)
    obtain ⟨between, hbetween, hrest⟩ := Json.exists_space rest
    dsimp only at h
    rw [Json.readOnward_brace] at h
    split at h
    · next more hcomma =>
      obtain ⟨⟨onward, left'⟩, honward, heq⟩ := Option.map_eq_some_iff.1 h
      obtain ⟨rfl, rfl⟩ := Prod.mk.inj heq
      simp only [hcomma] at hstrings ⊢
      obtain ⟨inside, rfl, hbraceless, hmore⟩ :=
        ih honward fun m hm => hstrings m (List.mem_cons_of_mem _ hm)
      have hs : s = first ++ (between ++ [',']) ++ (inside ++ '\x7d' :: left') := by
        rw [hfirst.text_eq, hrest, hcomma]
        simp
      have hseparated := (isBraceless_space hbetween).append (isBraceless_singleton (c := ',')
        (by decide))
      refine ⟨first ++ (between ++ [',']) ++ inside, ?_,
        (hfirst.isBraceless.append hseparated).append hbraceless,
        List.forall_mem_cons.2 ⟨?_, fun m' hm' => ?_⟩⟩
      · rw [hs, List.append_assoc _ inside]
      · rw [List.append_assoc]
        exact hfirst.findsValue _
      · rw [hs]
        exact (hmore m' hm').append_left (hfirst.isOverrun.append (isOverrun_separator hbetween))
    · next left' hend =>
      obtain ⟨rfl, rfl⟩ := Prod.mk.inj (Option.some.inj h)
      simp only [hend]
      refine ⟨first ++ between, ?_, hfirst.isBraceless.append (isBraceless_space hbetween),
        List.forall_mem_singleton.2 (hfirst.findsValue between)⟩
      rw [hfirst.text_eq, hrest, hend, List.append_assoc]
    · simp at h

/-! ## Declarations -/

/-- The span of the match holds the characters between the quotes of the string that is the
value of the member, and the specifier is that string. -/
def Match.SpansValue (found : Match) (m : Member) (s : List Char) : Prop :=
  ∃ front raw, m.IsStringAt s front raw found.specifier ∧
    found.start = byteLength front ∧ found.stop = byteLength (front ++ raw)

/-- What a search inside of a block finds is found in the block. -/
theorem exists_mem_blockMatches {m : Member} {inside : List Char} (hbraceless : IsBraceless inside)
    (h : FindsValue m (inside ++ '\x7d' :: left) inside) (front : List Char) :
    ∃ found ∈ blockMatches (byteLength front) ('\x7b' :: (inside ++ '\x7d' :: left)),
      found.SpansValue m (front ++ '\x7b' :: (inside ++ '\x7d' :: left)) := by
  obtain ⟨lead, raw, text, hat, hfind⟩ := h
  obtain ⟨⟨place, o⟩, hmem, rfl, hplace⟩ := hfind none 0
  have hopen : matchingBrace? ('\x7b' :: (inside ++ '\x7d' :: left)) =
      (closingBrace? .code 1 (inside ++ '\x7d' :: left)).map (· + 1) := rfl
  have hend : closingBrace? .code 1 ('\x7d' :: left) = some 0 := rfl
  have hclose :
      matchingBrace? ('\x7b' :: (inside ++ '\x7d' :: left)) = some (inside.length + 1) := by
    rw [hopen, hbraceless, hend]
    simp
  have hinside :
      (('\x7b' :: (inside ++ '\x7d' :: left)).take (inside.length + 1)).drop 1 = inside := by
    simp
  refine ⟨{ o.toMatch (byteLength front + 1 + place) with specifier := text }, ?_,
    front ++ ['\x7b'] ++ lead, o.specifier, ?_, ?_, ?_⟩
  · unfold blockMatches
    simp only [hclose, hinside]
    refine List.mem_filterMap.2 ⟨(place, o), hmem, ?_⟩
    rw [hat.isWritten.decodeRaw?]
    rfl
  · have hbehind := hat.append_left (front ++ ['\x7b'])
    simpa using hbehind
  · have hbrace : '\x7b'.utf8Size = 1 := rfl
    simp only [Occurrence.toMatch, byteLength_append, byteLength_cons, byteLength_nil] at hplace ⊢
    omega
  · have hbrace : '\x7b'.utf8Size = 1 := rfl
    simp only [Occurrence.toMatch, byteLength_append, byteLength_cons, byteLength_nil] at hplace ⊢
    omega

/-- A block of strings is found with all its members. -/
theorem exists_mem_scanManifest_of_block {content : String} {outer inner : Member}
    {members : List (String × Json)} (houter : outer ∈ Json.membersOf content)
    (hkey : outer.raw = componentsKey.toList) (hvalue : outer.value = .object members)
    (hstrings : ∀ m ∈ outer.members, m.value.string?.isSome = true)
    (hinner : inner ∈ outer.members) :
    ∃ found ∈ scanManifest content.toList, found.SpansValue inner content.toList := by
  obtain ⟨behind, left, ⟨before, hcontent⟩, hstarts⟩ := Json.startsAt_of_mem_objectMembers houter
  obtain ⟨gap, gap', hgap, hgap', hbehind⟩ := hstarts.text_eq
  have hread := hstarts.value_eq
  rw [hvalue] at hread
  obtain ⟨text, hbrace, hinside⟩ := Json.inside_of_valueAt? hread
  have hmembers : outer.members =
      membersFrom (2 * outer.text.length) (Json.maxDepth - 1 - 1) text := by
    simp only [Member.members, Json.objectMembers, hbrace]
  rw [hmembers] at hstrings hinner
  rcases hinside with ⟨hempty, -⟩ | ⟨written, hwritten, -⟩
  · rw [Json.membersFrom_of_brace hempty] at hinner
    exact absurd hinner List.not_mem_nil
  · obtain ⟨inside, rfl, hbraceless, hfinds⟩ := findsValue_of_readMembers hwritten hstrings
    obtain ⟨gap'', hgap'', htext⟩ := Json.exists_space outer.text
    have hs : content.toList = before ++ gap ++ (keyText componentsKey.toList gap' gap'' ++
        '\x7b' :: (inside ++ '\x7d' :: left)) := by
      rw [← hcontent, hbehind, hkey, htext, hbrace]
      simp [keyText]
    have hblock := mem_search_blockStart? hgap' hgap'' (before ++ gap) (inside ++ '\x7d' :: left)
    rw [← hs] at hblock
    obtain ⟨found, hfound, hspans⟩ := exists_mem_blockMatches hbraceless (hfinds inner hinner)
      (before ++ gap ++ keyText componentsKey.toList gap' gap'')
    rw [List.append_assoc (before ++ gap), ← hs] at hspans
    refine ⟨found, List.mem_flatMap.2 ⟨_, hblock, ?_⟩, hspans⟩
    rwa [byteLength_append (before ++ gap)] at hfound

/-- The search of a manifest finds every component that the manifest declares, and its span
holds a value of the component as it is written, if every key of declarations is written
without escapes and every value behind it is an object of strings. -/
theorem exists_mem_scanManifest {content : String} {manifest : Json}
    (hparse : Json.parseObject? content = some manifest)
    (hplain : ∀ outer ∈ Json.membersOf content, outer.key = componentsKey →
      outer.raw = componentsKey.toList ∧
        ∀ inner ∈ outer.members, inner.value.string?.isSome = true) :
    ∀ declared ∈ componentDeclarations manifest,
      ∃ found ∈ scanManifest content.toList, found.specifier = declared.2 ∧
        ∃ outer ∈ Json.membersOf content, outer.key = componentsKey ∧
          ∃ inner ∈ outer.members, inner.key = declared.1 ∧
            found.SpansValue inner content.toList := by
  intro ⟨label, specifier⟩ hdeclared
  obtain ⟨fields, rfl, hfields⟩ : ∃ fields, manifest = .object fields ∧
      Json.parse? content = some (.object fields) := by
    unfold Json.parseObject? at hparse
    split at hparse
    · next fields hfields => exact ⟨fields, (Option.some.inj hparse).symm, hfields⟩
    · simp at hparse
  obtain ⟨left, hdocument⟩ := Json.valueAt?_of_parse? hfields
  unfold componentDeclarations at hdeclared
  split at hdeclared
  · next members hmembers =>
    obtain ⟨block, hblock, hobject⟩ := Option.bind_eq_some_iff.1 hmembers
    obtain rfl : block = .object members := by
      cases block with
      | object fields => exact congrArg Json.object (Option.some.inj hobject)
      | _ => simp [Json.members?] at hobject
    obtain ⟨⟨label', value⟩, hmem, hvalue⟩ := List.mem_filterMap.1 hdeclared
    obtain ⟨text, htext, heq⟩ := Option.map_eq_some_iff.1 hvalue
    obtain ⟨rfl, rfl⟩ := Prod.mk.inj heq
    have hstring := (Option.filter_eq_some_iff.1 htext).1
    have hwritten : (componentsKey, Json.object members) ∈ fields := by
      obtain ⟨front, behind, rfl, -⟩ := List.lookup_eq_some_iff.1 hblock
      exact List.mem_append_right _ List.mem_cons_self
    obtain ⟨outer, houter, hkey, hobject⟩ := Json.exists_mem_objectMembers hdocument hwritten
    obtain ⟨hraw, hstrings⟩ := hplain outer houter hkey
    obtain ⟨behind, left', -, hstarts⟩ := Json.startsAt_of_mem_objectMembers houter
    have hread := hstarts.value_eq
    rw [hobject] at hread
    obtain ⟨inner, hinner, hlabel, hspecifier⟩ := Json.exists_mem_objectMembers hread hmem
    obtain ⟨found, hfound, hspans⟩ :=
      exists_mem_scanManifest_of_block houter hraw hobject hstrings hinner
    refine ⟨found, hfound, ?_, outer, houter, hkey, inner, hinner, hlabel, hspans⟩
    obtain ⟨front, raw, hat, -, -⟩ := hspans
    rw [← hspecifier, hat.value_eq] at hstring
    exact Option.some.inj hstring
  · exact absurd hdeclared List.not_mem_nil

/-- A manifest with braces and quotes in its strings and a label that is declared twice. -/
def pageManifest : String :=
  "\x7b\"title\": \"\x7b\", \"usingComponents\" : " ++
    "\x7b \"a\x7d\": \"./\\\"\x7b\",\n\"b\" :\"\u00fc\",\"b\": \"kit\\/b\"\x7d \x7d"

theorem exists_mem_scanManifest_page :
    ∃ manifest, Json.parseObject? pageManifest = some manifest ∧
      componentDeclarations manifest = [("a\x7d", "./\"\x7b"), ("b", "kit/b")] ∧
      ∃ found ∈ scanManifest pageManifest.toList, found.specifier = "kit/b" ∧
        ∃ outer ∈ Json.membersOf pageManifest, outer.key = componentsKey ∧
          ∃ inner ∈ outer.members, inner.key = "b" ∧
            found.SpansValue inner pageManifest.toList := by
  have hdeclared : (Json.parseObject? pageManifest).map componentDeclarations =
      some [("a\x7d", "./\"\x7b"), ("b", "kit/b")] := by
    decide +kernel
  obtain ⟨manifest, hparse, hdeclarations⟩ := Option.map_eq_some_iff.1 hdeclared
  refine ⟨manifest, hparse, hdeclarations, ?_⟩
  exact exists_mem_scanManifest hparse (by decide +kernel) ("b", "kit/b") (by simp [hdeclarations])

-- A block that holds something else than strings may lead the search out of step.
example :
    let content := "\x7b\"usingComponents\":\x7b\":\":1,\":\":\"v\"\x7d\x7d"
    (Json.parseObject? content).map componentDeclarations = some [(":", "v")] ∧
      (scanManifest content.toList).map (·.specifier) = [":"] := by
  decide +kernel

end Scan

end Vendoring

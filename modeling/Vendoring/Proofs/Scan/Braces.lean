/-
# The end of a block

The brace that closes a block is found by a search that knows strings and braces only. With
the strings left out, as many braces are closed as opened up to there and not before. The
search goes through characters, and finds the same place as a search through the bytes that
encode them.
-/

import Vendoring.Proofs.Json.Grammar
import Vendoring.Proofs.Scan.Declarations

namespace Vendoring

namespace Scan

variable {state : BraceState} {c : Char} {s : List Char} {depth k n : Nat}

/-! ## Depth -/

namespace BraceState

/-- The characters outside of strings, behind a text that leaves the search in the state. -/
def bare : BraceState → List Char → List Char
  | _, [] => []
  | state, c :: s =>
    if state = .code ∧ c ≠ '"' then c :: (state.next c).bare s else (state.next c).bare s

/-- The number of open braces behind one more character. -/
def deepen (state : BraceState) (depth : Nat) (c : Char) : Nat :=
  if state = .code then
    if c = '\x7b' then depth + 1 else if c = '\x7d' then depth - 1 else depth
  else depth

/-- The number of braces that are opened outside of strings. -/
def opened (state : BraceState) (s : List Char) : Nat := (state.bare s).count '\x7b'

/-- The number of braces that are closed outside of strings. -/
def closed (state : BraceState) (s : List Char) : Nat := (state.bare s).count '\x7d'

@[simp] theorem opened_nil : state.opened [] = 0 := rfl

@[simp] theorem closed_nil : state.closed [] = 0 := rfl

/-- The depth keeps account of the braces, as long as one is open. -/
theorem deepen_add (hdepth : 0 < depth) :
    state.deepen depth c + (state.next c).opened s + state.closed (c :: s) =
      depth + state.opened (c :: s) + (state.next c).closed s := by
  simp only [opened, closed, bare, deepen]
  cases state with
  | string => simp
  | escape => simp
  | code =>
    by_cases hquote : c = '"'
    · subst hquote
      simp
    · by_cases hopen : c = '\x7b'
      · subst hopen
        simp
        omega
      · by_cases hclose : c = '\x7d'
        · subst hclose
          simp
          omega
        · simp [hquote, hopen, hclose]

/-- A brace stays open unless the last one is closed. -/
theorem deepen_pos (hdepth : 0 < depth) (h : ¬(state = .code ∧ c = '\x7d' ∧ depth ≤ 1)) :
    0 < state.deepen depth c := by
  rw [deepen]
  split
  · next hcode =>
    split
    · omega
    · split
      · next hclose =>
        have : ¬depth ≤ 1 := fun hle => h ⟨hcode, hclose, hle⟩
        omega
      · exact hdepth
  · exact hdepth

end BraceState

/-- The search steps from character to character, and stops at the brace that closes the
last open one. -/
theorem closingBrace?_cons : closingBrace? state depth (c :: s) =
    if state = .code ∧ c = '\x7d' ∧ depth ≤ 1 then some 0
    else (closingBrace? (state.next c) (state.deepen depth c) s).map (· + 1) := by
  cases state with
  | string => simp [closingBrace?, BraceState.next, BraceState.deepen]
  | escape => simp [closingBrace?, BraceState.next, BraceState.deepen]
  | code =>
    by_cases hquote : c = '"'
    · subst hquote
      simp [closingBrace?, BraceState.next, BraceState.deepen]
    · by_cases hopen : c = '\x7b'
      · subst hopen
        simp [closingBrace?, BraceState.next, BraceState.deepen]
      · by_cases hclose : c = '\x7d'
        · subst hclose
          simp [closingBrace?, BraceState.next, BraceState.deepen]
        · simp [closingBrace?, BraceState.next, BraceState.deepen, hquote, hopen, hclose]

/-- The search ends where all open braces are closed for the first time. -/
theorem closingBrace?_eq_some_iff (hdepth : 0 < depth) : closingBrace? state depth s = some k ↔
    k < s.length ∧ depth + state.opened (s.take (k + 1)) = state.closed (s.take (k + 1)) ∧
      ∀ n ≤ k, state.closed (s.take n) < depth + state.opened (s.take n) := by
  induction s generalizing state depth k with
  | nil => simp [closingBrace?]
  | cons c s ih =>
    rw [closingBrace?_cons]
    split
    · next hends =>
      obtain ⟨rfl, rfl, hlast⟩ := hends
      obtain rfl : depth = 1 := by omega
      have hone (rest : List Char) : BraceState.code.opened ('\x7d' :: rest) =
          BraceState.code.opened rest ∧ BraceState.code.closed ('\x7d' :: rest) =
          BraceState.code.closed rest + 1 := by
        simp [BraceState.opened, BraceState.closed, BraceState.bare, BraceState.next]
      cases k with
      | zero => simp [hone]
      | succ k =>
        -- everything is closed at the first character already
        have hfirst : ¬∀ n ≤ k + 1, BraceState.code.closed (('\x7d' :: s).take n) <
            1 + BraceState.code.opened (('\x7d' :: s).take n) := by
          intro h
          have := h 1 (by omega)
          simp [hone] at this
        simp [hfirst]
    · next hgoesOn =>
      have hdepth' := BraceState.deepen_pos hdepth hgoesOn
      have hcount (rest : List Char) : state.deepen depth c + (state.next c).opened rest +
          state.closed (c :: rest) = depth + state.opened (c :: rest) +
            (state.next c).closed rest := BraceState.deepen_add hdepth
      cases k with
      | zero =>
        have h := hcount []
        simp only [BraceState.opened_nil, BraceState.closed_nil] at h
        have hne : depth + state.opened [c] ≠ state.closed [c] := by omega
        simp [hne]
      | succ k =>
        rw [Option.map_eq_some_iff]
        simp only [Nat.add_right_cancel_iff, exists_eq_right, ih hdepth', List.length_cons,
          Nat.add_lt_add_iff_right, List.take_succ_cons]
        refine and_congr_right fun _ => and_congr ?_ ⟨fun h n hn => ?_, fun h n hn => ?_⟩
        · have := hcount (s.take (k + 1))
          omega
        · cases n with
          | zero => simpa using hdepth
          | succ n =>
            have := h n (by omega)
            have := hcount (s.take n)
            rw [List.take_succ_cons]
            omega
        · have := h (n + 1) (by omega)
          have := hcount (s.take n)
          rw [List.take_succ_cons] at *
          omega

/-! ## Blocks -/

/-- Outside of strings more braces are opened than closed. -/
def IsOpen (s : List Char) : Prop :=
  BraceState.code.closed s < BraceState.code.opened s

/-- Outside of strings as many braces are closed as opened, and not before the end. -/
structure IsBlock (s : List Char) : Prop where
  balanced : BraceState.code.opened s = BraceState.code.closed s
  isOpen : ∀ n, 0 < n → n < s.length → IsOpen (s.take n)

theorem matchingBrace?_eq_some_iff : matchingBrace? ('\x7b' :: s) = some k ↔
    k < ('\x7b' :: s).length ∧ IsBlock (('\x7b' :: s).take (k + 1)) := by
  have hopened (rest : List Char) : BraceState.code.opened ('\x7b' :: rest) =
      1 + BraceState.code.opened rest ∧ BraceState.code.closed ('\x7b' :: rest) =
      BraceState.code.closed rest := by
    simp [BraceState.opened, BraceState.closed, BraceState.bare, BraceState.next]
    omega
  have hstart : matchingBrace? ('\x7b' :: s) = (closingBrace? .code 1 s).map (· + 1) := rfl
  rw [hstart, Option.map_eq_some_iff]
  cases k with
  | zero =>
    have hnot : ¬IsBlock ['\x7b'] := fun h => absurd h.balanced (by decide)
    simp [hnot]
  | succ k =>
    simp only [Nat.add_right_cancel_iff, exists_eq_right, closingBrace?_eq_some_iff Nat.one_pos,
      List.length_cons, Nat.add_lt_add_iff_right, List.take_succ_cons]
    refine and_congr_right fun hk => ⟨fun h => ⟨?_, fun n hpos hn => ?_⟩,
      fun h => ⟨?_, fun n hn => ?_⟩⟩
    · rw [(hopened _).1, (hopened _).2]
      exact h.1
    · obtain ⟨n, rfl⟩ : ∃ m, n = m + 1 := ⟨n - 1, by omega⟩
      rw [List.length_cons, List.length_take] at hn
      rw [IsOpen, List.take_succ_cons, (hopened _).1, (hopened _).2, List.take_take,
        Nat.min_eq_left (by omega)]
      exact h.2 n (by omega)
    · have := h.balanced
      rwa [(hopened _).1, (hopened _).2] at this
    · have hlt : n + 1 < ('\x7b' :: s.take (k + 1)).length := by
        rw [List.length_cons, List.length_take]
        omega
      have := h.isOpen (n + 1) (Nat.succ_pos n) hlt
      rwa [IsOpen, List.take_succ_cons, (hopened _).1, (hopened _).2, List.take_take,
        Nat.min_eq_left (by omega)] at this

/-! ## Bytes -/

/-- A byte as the character of the same number. -/
def byteChar (b : UInt8) : Char := Char.ofNat b.toNat

/-- The bytes that encode the text. -/
def bytesOf (s : List Char) : List UInt8 := s.flatMap String.utf8EncodeChar

@[simp] theorem bytesOf_cons (c : Char) (s : List Char) :
    bytesOf (c :: s) = String.utf8EncodeChar c ++ bytesOf s := rfl

@[simp] theorem bytesOf_append (s u : List Char) : bytesOf (s ++ u) = bytesOf s ++ bytesOf u :=
  List.flatMap_append

@[simp] theorem length_bytesOf (s : List Char) : (bytesOf s).length = byteLength s := by
  induction s with
  | nil => rfl
  | cons c s ih => rw [bytesOf_cons, List.length_append, ih, String.length_utf8EncodeChar,
      byteLength_cons]

theorem bytesOf_toList (content : String) :
    bytesOf content.toList = content.toUTF8.data.toList := by
  have h := content.utf8Encode_toList
  rw [List.utf8Encode] at h
  rw [String.toUTF8, ← h, List.data_toByteArray]
  rfl

/-- The character stands for itself in a search, and its encoding does so too. -/
def IsPlain (c : Char) : Prop := c ≠ '"' ∧ c ≠ '\\' ∧ c ≠ '\x7b' ∧ c ≠ '\x7d'

theorem isPlain_of_le (h : 128 ≤ c.toNat) : IsPlain c := by
  refine ⟨?_, ?_, ?_, ?_⟩ <;> rintro rfl <;> exact absurd h (by decide)

theorem toNat_byteChar (b : UInt8) : (byteChar b).toNat = b.toNat := by
  have hb := b.toNat_lt
  have hvalid : b.toNat.isValidChar := .inl (by omega)
  rw [byteChar, Char.ofNat, dif_pos hvalid]
  rfl

/-- Behind the first 128 characters every byte of an encoding is beyond them. -/
theorem le_of_mem_utf8EncodeChar (hc : 128 ≤ c.toNat) {b : UInt8}
    (hb : b ∈ String.utf8EncodeChar c) : 128 ≤ b.toNat := by
  have hc : ¬c.val.toNat ≤ 127 := by
    have : c.val.toNat = c.toNat := rfl
    omega
  have hbyte (n : Nat) (hlow : 128 ≤ n) (hhigh : n < 256) : 128 ≤ (UInt8.ofNat n).toNat := by
    rw [UInt8.toNat_ofNat', Nat.mod_eq_of_lt hhigh]
    exact hlow
  simp only [String.utf8EncodeChar, if_neg hc] at hb
  split at hb
  · simp only [List.mem_cons, List.not_mem_nil, or_false] at hb
    rcases hb with rfl | rfl <;> exact hbyte _ (by omega) (by omega)
  · split at hb
    · simp only [List.mem_cons, List.not_mem_nil, or_false] at hb
      rcases hb with rfl | rfl | rfl <;> exact hbyte _ (by omega) (by omega)
    · simp only [List.mem_cons, List.not_mem_nil, or_false] at hb
      rcases hb with rfl | rfl | rfl | rfl <;> exact hbyte _ (by omega) (by omega)

/-- A character is encoded as itself, or in bytes that mean nothing to the search. -/
theorem byteChars_cases (c : Char) : (String.utf8EncodeChar c).map byteChar = [c] ∨
    IsPlain c ∧ ∀ d ∈ (String.utf8EncodeChar c).map byteChar, IsPlain d := by
  by_cases hc : 128 ≤ c.toNat
  · refine .inr ⟨isPlain_of_le hc, fun d hd => ?_⟩
    obtain ⟨b, hb, rfl⟩ := List.mem_map.1 hd
    exact isPlain_of_le ((toNat_byteChar b).symm ▸ le_of_mem_utf8EncodeChar hc hb)
  · have hascii : c.val.toNat ≤ 127 := by
      have : c.val.toNat = c.toNat := rfl
      omega
    have hbyte : byteChar (UInt8.ofNat c.val.toNat) = c := by
      rw [byteChar, UInt8.toNat_ofNat', Nat.mod_eq_of_lt (by omega)]
      exact Char.ofNat_toNat c
    left
    simp only [String.utf8EncodeChar, if_pos hascii, List.map_cons, List.map_nil, hbyte]

/-- The state behind a character that the search does not look at. -/
def BraceState.settle : BraceState → BraceState
  | .code => .code
  | .string | .escape => .string

theorem closingBrace?_plain {front : List Char} (hfront : ∀ c ∈ front, IsPlain c)
    (hne : front ≠ []) : closingBrace? state depth (front ++ s) =
      (closingBrace? state.settle depth s).map (· + front.length) := by
  induction front generalizing state with
  | nil => exact absurd rfl hne
  | cons c front ih =>
    obtain ⟨⟨hquote, hescape, hopen, hclose⟩, hrest⟩ := List.forall_mem_cons.1 hfront
    have hnext : state.next c = state.settle := by
      cases state <;> simp [BraceState.next, BraceState.settle, hquote, hescape]
    have hdepth : state.deepen depth c = depth := by
      simp [BraceState.deepen, hopen, hclose]
    rw [List.cons_append, closingBrace?_cons, if_neg (fun h => hclose h.2.1), hnext, hdepth]
    by_cases hnil : front = []
    · subst hnil
      rfl
    · have hsettle : state.settle.settle = state.settle := by cases state <;> rfl
      rw [ih hrest hnil, hsettle, Option.map_map]
      rfl

/-- The search through the bytes finds the byte in front of which the characters end that are
in front of the brace. -/
theorem closingBrace?_bytesOf : closingBrace? state depth ((bytesOf s).map byteChar) =
    (closingBrace? state depth s).map fun k => byteLength (s.take k) := by
  induction s generalizing state depth with
  | nil => simp [bytesOf, closingBrace?]
  | cons c s ih =>
    have hsize : c.utf8Size = ((String.utf8EncodeChar c).map byteChar).length := by
      rw [List.length_map, String.length_utf8EncodeChar]
    rw [bytesOf_cons, List.map_append]
    rcases byteChars_cases c with hself | ⟨hplain, hbytes⟩
    · rw [hself] at hsize ⊢
      rw [List.singleton_append, closingBrace?_cons, closingBrace?_cons]
      split
      · rfl
      · rw [ih, Option.map_map, Option.map_map]
        congr 1
        funext k
        simp [hsize, Nat.add_comm]
    · have hne : (String.utf8EncodeChar c).map byteChar ≠ [] := by
        rw [← List.length_pos_iff, ← hsize]
        exact c.utf8Size_pos
      have hchar : closingBrace? state depth ([c] ++ s) =
          (closingBrace? state.settle depth s).map (· + 1) :=
        closingBrace?_plain (by simpa using hplain) (by simp)
      rw [List.singleton_append] at hchar
      rw [closingBrace?_plain hbytes hne, ih, hchar, Option.map_map, Option.map_map, ← hsize]
      congr 1
      funext k
      simp [Nat.add_comm]

/-! ## Objects -/

/-- Inside of a block the search gets past the text, and as many braces are open behind it. -/
def IsPassed (front : List Char) : Prop :=
  ∀ depth rest, 0 < depth → closingBrace? .code depth (front ++ rest) =
    (closingBrace? .code depth rest).map (· + front.length)

theorem IsBraceless.isPassed {front : List Char} (h : IsBraceless front) : IsPassed front :=
  fun depth rest _ => h depth rest

theorem IsPassed.append {front behind : List Char} (h : IsPassed front) (h' : IsPassed behind) :
    IsPassed (front ++ behind) := by
  intro depth rest hdepth
  rw [List.append_assoc, h _ _ hdepth, h' _ _ hdepth, Option.map_map, List.length_append]
  congr 1
  funext n
  simp only [Function.comp_apply]
  omega

/-- What is inside of braces is passed together with them. -/
theorem IsPassed.braces {inside : List Char} (h : IsPassed inside) :
    IsPassed ('\x7b' :: (inside ++ ['\x7d'])) := by
  intro depth rest hdepth
  have hopen (u : List Char) : closingBrace? .code depth ('\x7b' :: u) =
      (closingBrace? .code (depth + 1) u).map (· + 1) := rfl
  have hclose (u : List Char) : closingBrace? .code (depth + 1) ('\x7d' :: u) =
      (closingBrace? .code depth u).map (· + 1) := by
    rw [closingBrace?_cons, if_neg (by omega)]
    rfl
  rw [List.cons_append, List.append_assoc, hopen, h _ _ (Nat.succ_pos depth),
    List.singleton_append, hclose, Option.map_map, Option.map_map]
  congr 1
  funext n
  simp only [Function.comp_apply, List.length_cons, List.length_append, List.length_nil]
  omega

/-- The brace that opens an object is matched by the one that closes it. -/
theorem IsPassed.matchingBrace?_eq {inside : List Char} (h : IsPassed inside) (rest : List Char) :
    matchingBrace? ('\x7b' :: (inside ++ '\x7d' :: rest)) = some (inside.length + 1) := by
  have hopen (u : List Char) : matchingBrace? ('\x7b' :: u) =
      (closingBrace? .code 1 u).map (· + 1) := rfl
  have hclose : closingBrace? .code 1 ('\x7d' :: rest) = some 0 := rfl
  rw [hopen, h _ _ Nat.one_pos, hclose]
  simp

end Scan

namespace Json

open Scan

variable {s : List Char}

theorem IsStringText.isRaw (h : IsStringText s) : IsRaw s := by
  have hhex {c : Char} (hc : IsHexDigit c) {s : List Char} (hs : IsRaw s) : IsRaw (c :: s) := by
    refine hs.cons ?_ ?_ <;> rintro rfl <;> exact absurd hc (by decide)
  induction h with
  | nil => exact isRaw_nil
  | char hquote hescape _ _ ih => exact ih.cons hquote hescape
  | escape _ _ ih => exact ih.escape _
  | unit h₁ h₂ h₃ h₄ _ ih => exact (hhex h₁ (hhex h₂ (hhex h₃ (hhex h₄ ih)))).escape 'u'

/-- Numbers are written in digits, signs, points and letters. -/
theorem IsNumberText.isBraceless (h : IsNumberText s) : IsBraceless s := by
  have hdigits {s : List Char} (hs : s.all Char.isDigit = true) : IsBraceless s := by
    refine isBraceless_of_forall fun c hc => ?_
    have hdigit := List.all_eq_true.1 hs c hc
    refine ⟨?_, ?_, ?_⟩ <;> rintro rfl <;> exact absurd hdigit (by decide)
  obtain @⟨sign, whole, fraction, exponent, hsign, hwhole, hfraction, hexponent⟩ := h
  have hsign' {sign : List Char} (hsign : sign ∈ [[], ['+'], ['-']]) : IsBraceless sign := by
    simp only [List.mem_cons, List.not_mem_nil, or_false] at hsign
    rcases hsign with rfl | rfl | rfl
    · exact isBraceless_nil
    · exact isBraceless_singleton (by decide)
    · exact isBraceless_singleton (by decide)
  have hsign : sign ∈ [[], ['+'], ['-']] := by
    simp only [List.mem_cons, List.not_mem_nil, or_false] at hsign ⊢
    exact hsign.imp_right .inr
  refine (hsign' hsign).append (.append ?_ (.append ?_ ?_))
  · cases hwhole with
    | zero => exact isBraceless_singleton (by decide)
    | digits hc _ hs => exact hdigits (by simp [hc, hs])
  · cases hfraction with
    | none => exact isBraceless_nil
    | digits _ hs =>
      have hpoint : IsBraceless ['.'] := isBraceless_singleton (by decide)
      exact hpoint.append (hdigits hs)
  · cases hexponent with
    | none => exact isBraceless_nil
    | @digits c sign s hletter hsign _ hs =>
      have hc : IsBraceless [c] := by
        rcases hletter with rfl | rfl <;> exact isBraceless_singleton (by decide)
      exact hc.append ((hsign' hsign).append (hdigits hs))

/-- The braces of all objects in a text of the grammar come in pairs. -/
theorem Spells.isPassed {form : Form} (h : Spells form s) : IsPassed s := by
  have hword {word : List Char} (hword : ∀ c ∈ word, c ≠ '"' ∧ c ≠ '\x7b' ∧ c ≠ '\x7d') :
      IsPassed word := (isBraceless_of_forall hword).isPassed
  have hmark {c : Char} (hc : c ≠ '"' ∧ c ≠ '\x7b' ∧ c ≠ '\x7d') : IsPassed [c] :=
    (isBraceless_singleton hc).isPassed
  have hgap {gap : List Char} (h : gap.all isSpace = true) : IsPassed gap :=
    (isBraceless_space h).isPassed
  induction h with
  | word hmem =>
    simp only [List.mem_cons, List.not_mem_nil, or_false] at hmem
    rcases hmem with rfl | rfl | rfl <;> exact hword (by simp)
  | number h => exact h.isBraceless.isPassed
  | string h => exact h.isRaw.isBraceless.isPassed
  | emptyArray h => exact (hmark (by decide)).append ((hgap h).append (hmark (by decide)))
  | array _ ih => exact (hmark (by decide)).append (ih.append (hmark (by decide)))
  | object _ ih => exact ih
  | emptyObject h => exact (hgap h).braces
  | fullObject _ ih => exact ih.braces
  | padded h _ h' ih => exact (hgap h).append (ih.append (hgap h'))
  | lastItem _ ih => exact ih
  | item _ _ ih ih' => exact ih.append ((hmark (by decide)).append ih')
  | @member gap key gap' s h hkey h' _ ih =>
    have hkey := hkey.isRaw.isBraceless.isPassed
    have hall := (hgap h).append (hkey.append ((hgap h').append
      ((hmark (c := ':') (by decide)).append ih)))
    simpa using hall
  | lastMember _ ih => exact ih
  | moreMembers _ _ ih ih' => exact ih.append ((hmark (by decide)).append ih')

/-- The brace that an object starts with is matched by its last character. -/
theorem Spells.matchingBrace?_eq (h : Spells .object s) (rest : List Char) :
    matchingBrace? (s ++ rest) = some (s.length - 1) := by
  have hbraces {inside : List Char} (hinside : IsPassed inside) :
      matchingBrace? ('\x7b' :: (inside ++ ['\x7d']) ++ rest) =
        some (('\x7b' :: (inside ++ ['\x7d'])).length - 1) := by
    have := hinside.matchingBrace?_eq rest
    simpa using this
  cases h with
  | emptyObject hgap => exact hbraces (isBraceless_space hgap).isPassed
  | fullObject h => exact hbraces h.isPassed

/-- The reader and the search agree on where an object ends. -/
theorem matchingBrace?_of_valueAt? {depth : Nat} {left : List Char}
    {members : List (String × Json)}
    (h : valueAt? depth ('\x7b' :: s) = some (object members, left)) :
    ∃ text, '\x7b' :: s = text ++ left ∧
      matchingBrace? ('\x7b' :: s) = some (text.length - 1) := by
  obtain ⟨gap, text, hgap, hs, -, hobject⟩ := (readerSpelled _).value _ _ _ _ h
  have hnil : gap = [] := by
    cases gap with
    | nil => rfl
    | cons c gap =>
      obtain ⟨rfl, -⟩ := List.cons.inj hs
      exact absurd (List.all_eq_true.1 hgap _ List.mem_cons_self) (by decide)
  rw [hnil, List.nil_append] at hs
  exact ⟨text, hs, hs ▸ (hobject members rfl).matchingBrace?_eq left⟩

theorem Spells.exists_concat (h : Spells .object s) : ∃ front, s = front ++ ['\x7d'] := by
  cases h with
  | @emptyObject gap _ => exact ⟨'\x7b' :: gap, rfl⟩
  | @fullObject s _ => exact ⟨'\x7b' :: s, rfl⟩

end Json

/-! ## Places in a content -/

namespace Scan

/-- The bytes of the content from one place to another are a block. -/
def IsBlockAt (content : String) (opening close : Nat) : Prop :=
  let bytes := content.toUTF8.data.toList
  opening ≤ close ∧ close < bytes.length ∧
    IsBlock (((bytes.drop opening).take (close + 1 - opening)).map byteChar)

/-- The byte of the brace that matches the one that the text starts with. -/
def closeAt? (opening : Nat) (text : List Char) : Option Nat :=
  (matchingBrace? text).map fun k => opening + byteLength (text.take k)

/-- What is found from the place of a brace on is the end of the block that starts there. -/
structure FindsClose (content : String) (opening : Nat) (text : List Char) : Prop where
  isValid : (String.Pos.Raw.mk opening).IsValid content
  of_eq_some : ∀ close, closeAt? opening text = some close →
    IsBlockAt content opening close ∧ (String.Pos.Raw.mk close).IsValid content
  eq_none_iff : closeAt? opening text = none ↔ ¬∃ close, IsBlockAt content opening close
  of_object : ∀ object rest, text = object ++ rest → Json.Spells .object object →
    closeAt? opening text = some (opening + byteLength object - 1)

variable {content : String} {opening close : Nat} {front text rest : List Char}

theorem length_bytes (content : String) :
    content.toUTF8.data.toList.length = content.utf8ByteSize := by
  rw [← bytesOf_toList, length_bytesOf, byteLength_toList]

/-- A brace is a character of its own. -/
theorem isValid_of_brace (h : content.toUTF8.data.toList[opening]? = some 0x7B) :
    (String.Pos.Raw.mk opening).IsValid content := by
  obtain ⟨hlt, hbyte⟩ := List.getElem?_eq_some_iff.1 h
  refine String.Pos.Raw.isValid_iff_isUTF8FirstByte.2 (.inr ⟨?_, ?_⟩)
  · rw [length_bytes] at hlt
    exact hlt
  · have hfirst : content.getUTF8Byte ⟨opening⟩ (by rw [length_bytes] at hlt; exact hlt) = 0x7B :=
      hbyte
    rw [hfirst]
    decide

theorem isValid_of_append (h : content.toList = front ++ text) :
    (String.Pos.Raw.mk (byteLength front)).IsValid content := by
  refine String.Pos.Raw.isValid_iff_exists_append.2
    ⟨String.ofList front, String.ofList text, ?_, ?_⟩
  · rw [← String.ofList_append, ← h, String.ofList_toList]
  · rw [String.Pos.Raw.ext_iff, String.byteIdx_rawEndPos, ← byteLength_toList, String.toList_ofList]

theorem exists_cons_of_head?_bytesOf (h : (bytesOf text).head? = some 0x7B) :
    ∃ rest, text = '\x7b' :: rest := by
  cases text with
  | nil => cases h
  | cons c rest =>
    refine ⟨rest, ?_⟩
    obtain ⟨b, more, hc⟩ := List.exists_cons_of_ne_nil (String.utf8EncodeChar_ne_nil (c := c))
    rw [bytesOf_cons, hc, List.cons_append, List.head?_cons, Option.some.injEq] at h
    have hchars := byteChars_cases c
    rw [hc, h, List.map_cons, show byteChar 0x7B = '\x7b' from rfl] at hchars
    rcases hchars with hself | ⟨-, hplain⟩
    · rw [(List.cons.inj hself).1]
    · exact absurd rfl (hplain '\x7b' List.mem_cons_self).2.2.1

/-- The text from a brace on. -/
theorem exists_text_of_brace (h : content.toUTF8.data.toList[opening]? = some 0x7B) :
    ∃ front rest, content.toList = front ++ '\x7b' :: rest ∧ byteLength front = opening ∧
      content.toUTF8.data.toList.drop opening = bytesOf ('\x7b' :: rest) := by
  obtain ⟨s₁, s₂, rfl, hpos⟩ := String.Pos.Raw.isValid_iff_exists_append.1 (isValid_of_brace h)
  have hlength : byteLength s₁.toList = opening := by
    rw [byteLength_toList, ← String.byteIdx_rawEndPos, ← hpos]
  have hbytes : (s₁ ++ s₂).toUTF8.data.toList.drop opening = bytesOf s₂.toList := by
    rw [← bytesOf_toList, String.toList_append, bytesOf_append, ← hlength, ← length_bytesOf,
      List.drop_left]
  have hhead : (bytesOf s₂.toList).head? = some 0x7B := by
    rw [← hbytes, List.head?_drop]
    exact h
  obtain ⟨rest, hrest⟩ := exists_cons_of_head?_bytesOf hhead
  exact ⟨s₁.toList, rest, by rw [String.toList_append, hrest], hlength, hrest ▸ hbytes⟩

/-- A search from the brace on finds the end of the block, byte by byte. -/
theorem closeAt?_eq_some_iff
    (hbytes : content.toUTF8.data.toList.drop opening = bytesOf ('\x7b' :: rest)) :
    closeAt? opening ('\x7b' :: rest) = some close ↔ IsBlockAt content opening close := by
  have hchars : (content.toUTF8.data.toList.drop opening).map byteChar =
      '\x7b' :: (bytesOf rest).map byteChar := by
    rw [hbytes]
    rfl
  have hsearch : closeAt? opening ('\x7b' :: rest) =
      (matchingBrace? ((content.toUTF8.data.toList.drop opening).map byteChar)).map
        (opening + ·) := by
    rw [closeAt?, matchingBrace?, matchingBrace?, hbytes, closingBrace?_bytesOf, Option.map_map]
    rfl
  have hlength := congrArg List.length hchars
  rw [List.length_map, List.length_drop] at hlength
  rw [hsearch, hchars, Option.map_eq_some_iff]
  simp only [matchingBrace?_eq_some_iff, IsBlockAt, List.map_take, hchars, ← hlength]
  constructor
  · rintro ⟨k, ⟨hk, hblock⟩, rfl⟩
    refine ⟨Nat.le_add_right _ _, by omega, ?_⟩
    rwa [Nat.add_assoc, Nat.add_sub_cancel_left]
  · rintro ⟨hle, hlt, hblock⟩
    refine ⟨close - opening, ⟨by omega, ?_⟩, by omega⟩
    rwa [← Nat.sub_add_comm hle]

/-- From any brace on that opens a block, the search finds the end of the block, if it has
one. If a whole object starts there, this is its last character. -/
theorem exists_findsClose (content : String) {opening : Nat}
    (h : content.toUTF8.data.toList[opening]? = some 0x7B) :
    ∃ front text, content.toList = front ++ text ∧ byteLength front = opening ∧
      FindsClose content opening text := by
  obtain ⟨front, rest, hcontent, hfront, hbytes⟩ := exists_text_of_brace h
  refine ⟨front, '\x7b' :: rest, hcontent, hfront, isValid_of_brace h, fun close hclose => ?_, ?_,
    fun object more hobject hspells => ?_⟩
  · refine ⟨(closeAt?_eq_some_iff hbytes).1 hclose, ?_⟩
    obtain ⟨k, -, rfl⟩ := Option.map_eq_some_iff.1 hclose
    have hsplit : content.toList =
        front ++ ('\x7b' :: rest).take k ++ ('\x7b' :: rest).drop k := by
      rw [List.append_assoc, List.take_append_drop, hcontent]
    rw [← hfront, ← byteLength_append]
    exact isValid_of_append hsplit
  · simp only [Option.eq_none_iff_forall_ne_some, ne_eq, closeAt?_eq_some_iff hbytes, not_exists]
  · obtain ⟨inside, rfl⟩ := hspells.exists_concat
    have hfound := hspells.matchingBrace?_eq more
    rw [← hobject, List.length_append, List.length_singleton, Nat.add_sub_cancel] at hfound
    have htake : ('\x7b' :: rest).take inside.length = inside := by
      rw [hobject, List.append_assoc, List.take_left]
    rw [closeAt?, hfound, Option.map_some, htake, byteLength_append,
      show byteLength ['\x7d'] = 1 from rfl, ← Nat.add_assoc, Nat.add_sub_cancel]

/-- A list with an object that has braces in its strings. -/
def bracesInStrings : String := "[\x7b\"a\x7d\":\x7b\x7d,\"b\":\"ä\\\"\x7b\"\x7d]"

theorem exists_findsClose_bracesInStrings :
    bracesInStrings.toUTF8.data.toList[1]? = some 0x7B ∧
      ∃ front text, bracesInStrings.toList = front ++ text ∧ byteLength front = 1 ∧
        FindsClose bracesInStrings 1 text :=
  ⟨by decide, exists_findsClose bracesInStrings (by decide)⟩

example : closeAt? 1 (bracesInStrings.toList.drop 1) = some 21 := by decide

end Scan

end Vendoring

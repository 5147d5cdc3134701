/-
# Reading by tokens

The first characters of a text decide which reader goes on. Here each reader is described
by what it does behind a sign, behind the first token of a value, and behind a value in a
list.
-/

import Vendoring.Json.Reader

namespace Vendoring.Json

variable {c : Char} {s rest left : List Char}

/-! ## Numbers by their sign -/

/-- Whether an exponent is below zero, and what stands behind its sign. -/
def signOf (s : List Char) : Bool × List Char :=
  match s with
  | '+' :: more => (false, more)
  | '-' :: more => (true, more)
  | _ => (false, s)

theorem signOf_other (hplus : c ≠ '+') (hminus : c ≠ '-') : signOf (c :: s) = (false, c :: s) := by
  simp [signOf, hplus, hminus]

/-- The exponent behind its letter. -/
theorem readExponent_cons (hc : (c = 'e' || c = 'E') = true) (negative : Bool) (digits : Nat)
    (power : Int) (s : List Char) :
    readExponent negative digits power (c :: s) =
      if (signOf s).2.takeWhile Char.isDigit = [] then none
      else
        let n : Int := (((signOf s).2.takeWhile Char.isDigit).foldl
          (fun n c => 10 * n + digitValue c) 0 : Nat)
        (double? negative digits (if (signOf s).1 then power - n else power + n)).map
          (·, (signOf s).2.dropWhile Char.isDigit) := by
  simp only [readExponent, if_pos hc]
  rfl

/-- A number behind its sign. -/
def readUnsigned (negative : Bool) (s : List Char) : Option (JsonNumber × List Char) :=
  match s with
  | '0' :: rest => if startsWithDigit rest then none else readNumberEnd negative 0 rest
  | c :: _ =>
    if c.isDigit then
      let (n, _, rest) := collectDigits 0 s
      readNumberEnd negative n rest
    else none
  | [] => none

theorem readNumber_minus (s : List Char) : readNumber ('-' :: s) = readUnsigned true s := rfl

theorem readNumber_other (hc : c ≠ '-') : readNumber (c :: s) = readUnsigned false (c :: s) := by
  simp [readNumber, hc]
  rfl

theorem readUnsigned_other (hc : c ≠ '0') (negative : Bool) :
    readUnsigned negative (c :: s) =
      if c.isDigit then
        readNumberEnd negative (collectDigits 0 (c :: s)).1 (collectDigits 0 (c :: s)).2.2
      else none := by
  simp [readUnsigned]

/-- A number starts with its sign or with a digit. -/
theorem head_of_readNumber {n : JsonNumber} (h : readNumber s = some (n, left)) :
    ∃ c rest, s = c :: rest ∧ (c = '-' ∨ c.isDigit = true) := by
  cases s with
  | nil => simp [readNumber] at h
  | cons c rest =>
    refine ⟨c, rest, rfl, ?_⟩
    by_cases hminus : c = '-'
    · exact .inl hminus
    · right
      rw [readNumber_other hminus] at h
      by_cases hzero : c = '0'
      · rw [hzero]
        decide
      · rw [readUnsigned_other hzero] at h
        split at h
        · assumption
        · simp at h

/-! ## Containers -/

section Containers

variable {α : Type}

/-- What stands behind the bracket that opens a container: the bracket that closes it, or the
parts of the container. -/
def readInside (closing : Char) (parts : List Char → Option (List α × List Char))
    (s : List Char) : Option (List α × List Char) :=
  match skipSpace s with
  | c :: left => if c = closing then some ([], left) else parts s
  | [] => parts s

/-- What stands behind a part of a container: a comma and further parts, or the bracket that
closes it. -/
def readOnward (closing : Char) (onward : List Char → Option (List α × List Char)) (part : α)
    (s : List Char) : Option (List α × List Char) :=
  match skipSpace s with
  | c :: left =>
    if c = ',' then (onward left).map fun (parts, left) => (part :: parts, left)
    else if c = closing then some ([part], left)
    else none
  | [] => none

theorem readOnward_bracket (onward : List Char → Option (List α × List Char)) (part : α)
    (s : List Char) :
    readOnward ']' onward part s =
      match skipSpace s with
      | ',' :: more => (onward more).map fun (parts, left) => (part :: parts, left)
      | ']' :: left => some ([part], left)
      | _ => none := by
  rw [readOnward]
  cases skipSpace s with
  | nil => rfl
  | cons c left =>
    by_cases hcomma : c = ','
    · rw [hcomma]
      rfl
    · by_cases hend : c = ']'
      · rw [hend]
        rfl
      · simp [hcomma, hend]

theorem readOnward_brace (onward : List Char → Option (List α × List Char)) (part : α)
    (s : List Char) :
    readOnward '\x7d' onward part s =
      match skipSpace s with
      | ',' :: more => (onward more).map fun (parts, left) => (part :: parts, left)
      | '\x7d' :: left => some ([part], left)
      | _ => none := by
  rw [readOnward]
  cases skipSpace s with
  | nil => rfl
  | cons c left =>
    by_cases hcomma : c = ','
    · rw [hcomma]
      rfl
    · by_cases hend : c = '\x7d'
      · rw [hend]
        rfl
      · simp [hcomma, hend]

end Containers

/-- What stands behind a comma or the opening brace of an object: a key, a colon and a value. -/
def readMember (value : List Char → Option (Json × List Char)) (s : List Char) :
    Option ((String × Json) × List Char) :=
  match skipSpace s with
  | '"' :: behind =>
    (readString behind).bind fun (key, rest) =>
      match skipSpace rest with
      | ':' :: valueText => (value valueText).map fun (value, left) => ((key, value), left)
      | _ => none
  | _ => none


section Values

variable {calls depth : Nat}

theorem readItems_succ (s : List Char) :
    readItems (calls + 1) depth s = (readValue calls depth s).bind fun (item, rest) =>
      readOnward ']' (readItems calls depth) item rest := by
  rw [readItems]
  congr 1
  funext x
  obtain ⟨item, rest⟩ := x
  exact (readOnward_bracket _ item rest).symm

theorem readMembers_succ (s : List Char) :
    readMembers (calls + 1) depth s =
      (readMember (readValue calls depth) s).bind fun (m, rest) =>
        readOnward '\x7d' (readMembers calls depth) m rest := by
  simp only [readMembers, readMember, readOnward_brace]
  cases skipSpace s with
  | nil => rfl
  | cons c behind =>
    by_cases hquote : c = '"'
    · subst hquote
      simp only [Option.bind_assoc]
      congr 1
      funext x
      obtain ⟨key, rest⟩ := x
      cases skipSpace rest with
      | nil => rfl
      | cons c valueText =>
        by_cases hcolon : c = ':'
        · subst hcolon
          simp only [Option.bind_map]
          rfl
        · simp [hcolon]
    · simp [hquote]

/-! ## Values by their first token -/

/-- A value is read from its first token onwards. -/
theorem readValue_succ (s : List Char) :
    readValue (calls + 1) depth s =
      match skipSpace s with
      | 'n' :: 'u' :: 'l' :: 'l' :: rest => some (null, rest)
      | 't' :: 'r' :: 'u' :: 'e' :: rest => some (bool true, rest)
      | 'f' :: 'a' :: 'l' :: 's' :: 'e' :: rest => some (bool false, rest)
      | '"' :: rest => (readString rest).map fun (text, left) => (string text, left)
      | '[' :: rest =>
        if depth = 0 then none
        else
          match skipSpace rest with
          | ']' :: left => some (array [], left)
          | _ => (readItems calls (depth - 1) rest).map fun (items, left) => (array items, left)
      | '\x7b' :: rest =>
        if depth = 0 then none
        else
          match skipSpace rest with
          | '\x7d' :: left => some (object [], left)
          | _ =>
            (readMembers calls (depth - 1) rest).map fun (members, left) =>
              (object (distinctMembers members), left)
      | other => (readNumber other).map fun (n, left) => (number n, left) :=
  rfl

theorem readValue_null (h : skipSpace s = 'n' :: 'u' :: 'l' :: 'l' :: rest) :
    readValue (calls + 1) depth s = some (null, rest) := by
  rw [readValue_succ, h]
  rfl

theorem readValue_true (h : skipSpace s = 't' :: 'r' :: 'u' :: 'e' :: rest) :
    readValue (calls + 1) depth s = some (bool true, rest) := by
  rw [readValue_succ, h]
  rfl

theorem readValue_false (h : skipSpace s = 'f' :: 'a' :: 'l' :: 's' :: 'e' :: rest) :
    readValue (calls + 1) depth s = some (bool false, rest) := by
  rw [readValue_succ, h]
  rfl

theorem readValue_string (h : skipSpace s = '"' :: rest) :
    readValue (calls + 1) depth s =
      (readString rest).map fun (text, left) => (string text, left) := by
  rw [readValue_succ, h]
  rfl

theorem readValue_array (h : skipSpace s = '[' :: rest) :
    readValue (calls + 1) depth s =
      if depth = 0 then none
      else (readInside ']' (readItems calls (depth - 1)) rest).map
        fun (items, left) => (array items, left) := by
  rw [readValue_succ, h]
  simp only [readInside]
  cases skipSpace rest with
  | nil => rfl
  | cons c left =>
    by_cases hend : c = ']'
    · rw [hend]
      rfl
    · simp [hend]

theorem readValue_object (h : skipSpace s = '\x7b' :: rest) :
    readValue (calls + 1) depth s =
      if depth = 0 then none
      else (readInside '\x7d' (readMembers calls (depth - 1)) rest).map
        fun (members, left) => (object (distinctMembers members), left) := by
  rw [readValue_succ, h]
  simp only [readInside]
  cases skipSpace rest with
  | nil => rfl
  | cons c left =>
    by_cases hend : c = '\x7d'
    · rw [hend]
      rfl
    · simp [hend]

theorem readValue_number (h : skipSpace s = c :: rest) (hc : c = '-' ∨ c.isDigit = true) :
    readValue (calls + 1) depth s =
      (readNumber (c :: rest)).map fun (n, left) => (number n, left) := by
  rw [readValue_succ, h]
  rcases hc with rfl | hc
  · rfl
  · have hne (d : Char) (hd : d.isDigit = false) : c ≠ d := by
      rintro rfl
      simp [hd] at hc
    simp [hne 'n' rfl, hne 't' rfl, hne 'f' rfl, hne '"' rfl, hne '[' rfl, hne '\x7b' rfl]

/-- The first token of a value decides what it is. -/
theorem token_of_readValue {v : Json} (h : readValue (calls + 1) depth s = some (v, left)) :
    (∃ rest, skipSpace s = 'n' :: 'u' :: 'l' :: 'l' :: rest) ∨
      (∃ rest, skipSpace s = 't' :: 'r' :: 'u' :: 'e' :: rest) ∨
      (∃ rest, skipSpace s = 'f' :: 'a' :: 'l' :: 's' :: 'e' :: rest) ∨
      (∃ rest, skipSpace s = '"' :: rest) ∨ (∃ rest, skipSpace s = '[' :: rest) ∨
      (∃ rest, skipSpace s = '\x7b' :: rest) ∨
      ∃ c rest, skipSpace s = c :: rest ∧ (c = '-' ∨ c.isDigit = true) := by
  rw [readValue_succ] at h
  split at h
  · next rest heq => exact .inl ⟨rest, heq⟩
  · next rest heq => exact .inr (.inl ⟨rest, heq⟩)
  · next rest heq => exact .inr (.inr (.inl ⟨rest, heq⟩))
  · next rest heq => exact .inr (.inr (.inr (.inl ⟨rest, heq⟩)))
  · next rest heq => exact .inr (.inr (.inr (.inr (.inl ⟨rest, heq⟩))))
  · next rest heq => exact .inr (.inr (.inr (.inr (.inr (.inl ⟨rest, heq⟩)))))
  · obtain ⟨⟨n, left⟩, hnumber, -⟩ := Option.map_eq_some_iff.1 h
    exact .inr (.inr (.inr (.inr (.inr (.inr (head_of_readNumber hnumber))))))

end Values

end Vendoring.Json

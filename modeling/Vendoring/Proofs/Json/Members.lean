/-
# Members where they are written

A document keeps one value for each key, the last one, under the key that its escapes stand
for. Its text may say more: a key can be written twice, and in many ways. Here the members of
an object are listed as they are written, each with the text from behind its colon on. What is
left of a text tells how far one has come in it, so this text is also the place of the member.
-/

import Vendoring.Proofs.Json.Documents

namespace Vendoring.Json

variable {calls calls' depth n : Nat} {s left : List Char}

/-! ## Reading with other numbers of calls -/

/-- No string is exchanged for another one. -/
def Never (_ _ : String) : Prop := False

mutual

theorem Alters.eq_of_never {v v' : Json} : Alters Never v v' → v' = v
  | .null | .bool _ | .number _ => rfl
  | .string h => congrArg string (h.resolve_right id)
  | .array h => congrArg array h.eq_of_never
  | .object h => congrArg object h.eq_of_never

theorem AltersItems.eq_of_never {items items' : List Json} :
    AltersItems Never items items' → items' = items
  | .nil => rfl
  | .cons hv hrest => by rw [hv.eq_of_never, hrest.eq_of_never]

theorem AltersMembers.eq_of_never {members members' : List (String × Json)} :
    AltersMembers Never members members' → members' = members
  | .nil => rfl
  | .cons hv hrest => by rw [hv.eq_of_never, hrest.eq_of_never]

end

theorem Exchanges.eq_of_never {state : Scan.BraceState} {t : List Char}
    (h : Exchanges Never state s t) : t = s := by
  induction h with
  | rest => rfl
  | char _ ih => rw [ih]
  | value _ _ haltered => exact haltered.elim

/-- What is read does not depend on the number of calls, if these are enough for the text. -/
theorem readValue_of_lt {v : Json} (h : readValue calls depth s = some (v, left))
    (hcalls : 2 * s.length < calls') :
    readValue calls' depth s = some (v, left) ∧ left <:+ s := by
  obtain ⟨v', left', hread, hrel, hleft, hsuffix⟩ :=
    (@Exchanges.read Never calls calls').1 (.rest .code s) hcalls v left h
  rw [hrel.eq_of_never, hleft.eq_of_never] at hread
  exact ⟨hread, hleft.eq_of_never ▸ hsuffix⟩

/-- The value that a text starts with, and what stands behind it. The value is inside at most
`depth` further containers. -/
def valueAt? (depth : Nat) (s : List Char) : Option (Json × List Char) :=
  readValue (2 * s.length + 1) depth s

theorem valueAt?_of_readValue {v : Json} (h : readValue calls depth s = some (v, left)) :
    valueAt? depth s = some (v, left) :=
  (readValue_of_lt h (Nat.lt_succ_self _)).1

theorem suffix_of_valueAt? {v : Json} (h : valueAt? depth s = some (v, left)) : left <:+ s :=
  (readValue_of_lt h (Nat.lt_succ_self _)).2

theorem valueAt?_of_parse? {content : String} {v : Json} (h : parse? content = some v) :
    ∃ left, valueAt? maxDepth content.toList = some (v, left) := by
  unfold parse? at h
  dsimp only at h
  split at h
  · next value rest hread =>
    split at h
    · exact ⟨rest, Option.some.inj h ▸ valueAt?_of_readValue hread⟩
    · simp at h
  · simp at h

/-- The first token of an object is its brace, and that of a string its quote. -/
theorem token_of_valueAt? {v : Json} (h : valueAt? depth s = some (v, left)) :
    match v with
    | object _ => ∃ inside, skipSpace s = '\x7b' :: inside
    | string text => ∃ behind, skipSpace s = '"' :: behind ∧ readString behind = some (text, left)
    | _ => True := by
  unfold valueAt? at h
  rcases token_of_readValue h with ⟨rest, hs⟩ | ⟨rest, hs⟩ | ⟨rest, hs⟩ | ⟨rest, hs⟩ |
    ⟨rest, hs⟩ | ⟨rest, hs⟩ | ⟨c, rest, hs, hc⟩
  · rw [readValue_null hs] at h
    obtain ⟨rfl, -⟩ := Prod.mk.inj (Option.some.inj h)
    trivial
  · rw [readValue_true hs] at h
    obtain ⟨rfl, -⟩ := Prod.mk.inj (Option.some.inj h)
    trivial
  · rw [readValue_false hs] at h
    obtain ⟨rfl, -⟩ := Prod.mk.inj (Option.some.inj h)
    trivial
  · rw [readValue_string hs] at h
    obtain ⟨⟨text, left⟩, hread, heq⟩ := Option.map_eq_some_iff.1 h
    obtain ⟨rfl, rfl⟩ := Prod.mk.inj heq
    exact ⟨rest, hs, hread⟩
  · rw [readValue_array hs] at h
    split at h
    · simp at h
    · obtain ⟨⟨items, left⟩, -, heq⟩ := Option.map_eq_some_iff.1 h
      obtain ⟨rfl, -⟩ := Prod.mk.inj heq
      trivial
  · rw [readValue_object hs] at h
    split at h
    · simp at h
    · obtain ⟨⟨members, left⟩, -, heq⟩ := Option.map_eq_some_iff.1 h
      obtain ⟨rfl, -⟩ := Prod.mk.inj heq
      exact ⟨rest, hs⟩
  · rw [readValue_number hs hc] at h
    obtain ⟨⟨number, left⟩, -, heq⟩ := Option.map_eq_some_iff.1 h
    obtain ⟨rfl, -⟩ := Prod.mk.inj heq
    trivial

/-! ## Listing the members of an object -/

/-- A member of an object as it is written. -/
structure Member where
  /-- The characters of the key between its quotes. -/
  raw : List Char
  /-- The key. -/
  key : String
  /-- The text from behind the colon on. -/
  text : List Char
  /-- The value that this text starts with. -/
  value : Json

/-- The member that a text starts with, and what stands behind it. -/
def memberAt? (depth : Nat) (s : List Char) : Option (Member × List Char) :=
  match skipSpace s with
  | '"' :: behind =>
    (readString behind).bind fun (key, rest) =>
      match skipSpace rest with
      | ':' :: text => (valueAt? depth text).map fun (value, left) =>
          (⟨behind.take (behind.length - (rest.length + 1)), key, text, value⟩, left)
      | _ => none
  | _ => none

/-- The members that stand behind an opening brace or a comma, at most `n` of them. -/
def membersFrom : Nat → Nat → List Char → List Member
  | 0, _, _ => []
  | n + 1, depth, s =>
    match memberAt? depth s with
    | none => []
    | some (m, left) =>
      m :: match skipSpace left with
        | ',' :: more => membersFrom n depth more
        | _ => []

/-- The members of the object that a text starts with. -/
def objectMembers (depth : Nat) (s : List Char) : List Member :=
  match skipSpace s with
  | '\x7b' :: inside => membersFrom (2 * s.length) (depth - 1) inside
  | _ => []

/-- The members of a document that is an object. -/
def membersOf (content : String) : List Member :=
  objectMembers maxDepth content.toList

/-- The members of an object that is the value of a member of a document. -/
def Member.members (m : Member) : List Member :=
  objectMembers (maxDepth - 1) m.text

/-! ## One member -/

/-- A member is a string, a colon and a value, with white space between them. -/
structure Member.StartsAt (m : Member) (depth : Nat) (s left : List Char) : Prop where
  value_eq : valueAt? depth m.text = some (m.value, left)
  isWritten : IsWritten m.raw m.key
  text_eq : ∃ gap gap', gap.all isSpace = true ∧ gap'.all isSpace = true ∧
    s = gap ++ '"' :: (m.raw ++ '"' :: (gap' ++ ':' :: m.text))

theorem exists_space (s : List Char) : ∃ gap, gap.all isSpace = true ∧ s = gap ++ skipSpace s :=
  ⟨s.takeWhile isSpace, List.all_takeWhile, List.takeWhile_append_dropWhile.symm⟩

theorem startsAt_of_memberAt? {m : Member} (h : memberAt? depth s = some (m, left)) :
    m.StartsAt depth s left := by
  unfold memberAt? at h
  split at h
  · next behind hquote =>
    obtain ⟨⟨key, rest⟩, hkey, h⟩ := Option.bind_eq_some_iff.1 h
    dsimp only at h
    split at h
    · next text hcolon =>
      obtain ⟨⟨value, left⟩, hvalue, heq⟩ := Option.map_eq_some_iff.1 h
      obtain ⟨rfl, rfl⟩ := Prod.mk.inj heq
      obtain ⟨raw, rfl, -, hwritten⟩ := readString_eq_some hkey
      obtain ⟨gap, hgap, hs⟩ := exists_space s
      obtain ⟨gap', hgap', hrest⟩ := exists_space rest
      rw [hquote] at hs
      rw [hcolon] at hrest
      have hraw : (raw ++ '"' :: rest).take
          ((raw ++ '"' :: rest).length - (rest.length + 1)) = raw := by
        rw [List.length_append, List.length_cons, Nat.add_sub_cancel, List.take_left]
      rw [hraw]
      exact ⟨hvalue, hwritten, gap, gap', hgap, hgap', hrest ▸ hs⟩
    · simp at h
  · simp at h

/-- What the reader of members takes for one is listed as one. -/
theorem memberAt?_of_readMember {key : String} {value : Json}
    (h : readMember (readValue calls depth) s = some ((key, value), left)) :
    ∃ m : Member, memberAt? depth s = some (m, left) ∧ m.key = key ∧ m.value = value := by
  unfold readMember at h
  split at h
  · next behind hquote =>
    obtain ⟨⟨key, rest⟩, hkey, h⟩ := Option.bind_eq_some_iff.1 h
    dsimp only at h
    split at h
    · next text hcolon =>
      obtain ⟨⟨value, left⟩, hvalue, heq⟩ := Option.map_eq_some_iff.1 h
      obtain ⟨hmember, rfl⟩ := Prod.mk.inj heq
      obtain ⟨rfl, rfl⟩ := Prod.mk.inj hmember
      refine ⟨⟨behind.take (behind.length - (rest.length + 1)), key, text, value⟩, ?_, rfl, rfl⟩
      simp only [memberAt?, hquote, hkey, hcolon, valueAt?_of_readValue hvalue, Option.bind_some,
        Option.map_some]
    · simp at h
  · simp at h

theorem skipSpace_suffix (s : List Char) : skipSpace s <:+ s :=
  List.dropWhile_suffix isSpace

theorem Member.StartsAt.suffix {m : Member} (h : m.StartsAt depth s left) : left <:+ s := by
  obtain ⟨gap, gap', -, -, hs⟩ := h.text_eq
  refine (suffix_of_valueAt? h.value_eq).trans ⟨gap ++ '"' :: (m.raw ++ '"' :: (gap' ++ [':'])), ?_⟩
  rw [hs]
  simp

/-- Where a member is listed, it is written. -/
theorem startsAt_of_mem_membersFrom {m : Member} (h : m ∈ membersFrom n depth s) :
    ∃ behind left, behind <:+ s ∧ m.StartsAt depth behind left := by
  induction n generalizing s with
  | zero => exact absurd h List.not_mem_nil
  | succ n ih =>
    unfold membersFrom at h
    split at h
    · exact absurd h List.not_mem_nil
    · next first left hfirst =>
      have hstarts := startsAt_of_memberAt? hfirst
      rcases List.mem_cons.1 h with rfl | h
      · exact ⟨s, left, List.suffix_refl s, hstarts⟩
      · split at h
        · next more hcomma =>
          obtain ⟨behind, left', hmore, hm⟩ := ih h
          have hcomma' : ',' :: more <:+ s :=
            (hcomma ▸ skipSpace_suffix left).trans hstarts.suffix
          exact ⟨behind, left', hmore.trans ((List.suffix_cons _ _).trans hcomma'), hm⟩
        · exact absurd h List.not_mem_nil

theorem startsAt_of_mem_objectMembers {m : Member} (h : m ∈ objectMembers depth s) :
    ∃ behind left, behind <:+ s ∧ m.StartsAt (depth - 1) behind left := by
  unfold objectMembers at h
  split at h
  · next inside hbrace =>
    obtain ⟨behind, left, hinside, hm⟩ := startsAt_of_mem_membersFrom h
    have hbrace' : '\x7b' :: inside <:+ s := hbrace ▸ skipSpace_suffix s
    exact ⟨behind, left, hinside.trans ((List.suffix_cons _ _).trans hbrace'), hm⟩
  · exact absurd h List.not_mem_nil

/-! ## All members -/

/-- The members that are read are those that are listed. -/
theorem map_membersFrom {members : List (String × Json)}
    (h : readMembers n depth s = some (members, left)) :
    (membersFrom n depth s).map (fun m => (m.key, m.value)) = members := by
  induction n generalizing s members left with
  | zero => simp [readMembers] at h
  | succ n ih =>
    rw [readMembers_succ] at h
    obtain ⟨⟨⟨key, value⟩, rest⟩, hmember, h⟩ := Option.bind_eq_some_iff.1 h
    obtain ⟨m, hm, rfl, rfl⟩ := memberAt?_of_readMember hmember
    simp only [membersFrom, hm, List.map_cons]
    dsimp only at h
    rw [readOnward_brace] at h
    split at h
    · next more hcomma =>
      obtain ⟨⟨onward, left'⟩, honward, heq⟩ := Option.map_eq_some_iff.1 h
      obtain ⟨rfl, rfl⟩ := Prod.mk.inj heq
      simp only [hcomma, ih honward]
    · next left' hend =>
      obtain ⟨rfl, rfl⟩ := Prod.mk.inj (Option.some.inj h)
      simp [hend]
    · simp at h

theorem mem_of_mem_insertMember {key : String} {value : Json} {x : String × Json}
    {members : List (String × Json)} (h : x ∈ insertMember key value members) :
    x = (key, value) ∨ x ∈ members := by
  induction members with
  | nil => exact .inl (List.mem_singleton.1 h)
  | cons m members ih =>
    unfold insertMember at h
    split at h
    · next heq =>
      rcases List.mem_cons.1 h with rfl | h
      · exact .inl (by rw [heq])
      · exact .inr (List.mem_cons_of_mem _ h)
    · rcases List.mem_cons.1 h with rfl | h
      · exact .inr List.mem_cons_self
      · exact (ih h).imp_right (List.mem_cons_of_mem _)

/-- The value that counts for a key is one of those that are written for it. -/
theorem mem_of_mem_distinctMembers {x : String × Json} {members : List (String × Json)}
    (hmem : x ∈ distinctMembers members) : x ∈ members := by
  have hfold (seen : List (String × Json))
      (h : x ∈ members.foldl (fun seen m => insertMember m.1 m.2 seen) seen) :
      x ∈ members ∨ x ∈ seen := by
    clear hmem
    induction members generalizing seen with
    | nil => exact .inr h
    | cons m members ih =>
      rcases ih _ h with h | h
      · exact .inl (List.mem_cons_of_mem _ h)
      · rcases mem_of_mem_insertMember h with rfl | h
        · exact .inl List.mem_cons_self
        · exact .inr h
  exact (hfold [] hmem).resolve_right List.not_mem_nil

/-- An object starts with a brace, and behind it stand its members, if it has any. -/
theorem inside_of_valueAt? {members : List (String × Json)}
    (h : valueAt? depth s = some (object members, left)) :
    ∃ inside, skipSpace s = '\x7b' :: inside ∧
      (skipSpace inside = '\x7d' :: left ∧ members = [] ∨
        ∃ written, readMembers (2 * s.length) (depth - 1) inside = some (written, left) ∧
          members = distinctMembers written) := by
  obtain ⟨inside, hs⟩ := token_of_valueAt? h
  refine ⟨inside, hs, ?_⟩
  rw [valueAt?, readValue_object hs] at h
  split at h
  · simp at h
  · obtain ⟨⟨written, left⟩, hread, heq⟩ := Option.map_eq_some_iff.1 h
    obtain ⟨hmembers, rfl⟩ := Prod.mk.inj heq
    obtain rfl := object.inj hmembers
    unfold readInside at hread
    split at hread
    · next c rest hinside =>
      split at hread
      · next hend =>
        obtain ⟨rfl, rfl⟩ := Prod.mk.inj (Option.some.inj hread)
        exact .inl ⟨hend ▸ hinside, rfl⟩
      · exact .inr ⟨written, hread, rfl⟩
    · exact .inr ⟨written, hread, rfl⟩

theorem membersFrom_of_brace (h : skipSpace s = '\x7d' :: left) (n depth : Nat) :
    membersFrom n depth s = [] := by
  cases n with
  | zero => rfl
  | succ n => simp [membersFrom, memberAt?, h]

/-- Each member of an object that is read is written in its text. -/
theorem exists_mem_objectMembers {members : List (String × Json)} {key : String} {value : Json}
    (h : valueAt? depth s = some (object members, left)) (hmem : (key, value) ∈ members) :
    ∃ m ∈ objectMembers depth s, m.key = key ∧ m.value = value := by
  obtain ⟨inside, hs, hinside⟩ := inside_of_valueAt? h
  rcases hinside with ⟨-, hnil⟩ | ⟨written, hread, rfl⟩
  · rw [hnil] at hmem
    exact absurd hmem List.not_mem_nil
  · have hwritten := mem_of_mem_distinctMembers hmem
    rw [← map_membersFrom hread] at hwritten
    obtain ⟨m, hm, heq⟩ := List.mem_map.1 hwritten
    obtain ⟨rfl, rfl⟩ := Prod.mk.inj heq
    exact ⟨m, by rwa [objectMembers, hs], rfl, rfl⟩

end Vendoring.Json

/-
# Results in any order

The discoveries of a build are independent pieces of work, and each sends its result under the
index of its input. Whatever the order in which the results arrive, what is collected in the
end is the same: the failure of the first input that fails, and if none does, the files of
every input in its own slot.

While results arrive, the slots and the failure show the indices that have arrived so far and
nothing of their order. Inputs that hold nothing never send a result, so their slots stay as
they were.
-/

import Vendoring.Proofs.Build.Run

namespace Vendoring

namespace Collected

variable {inputs : List SourceFile} {result : Nat → InputResult} {count index : Nat}
  {arrived : List Nat} {c : Collected}

/-- The files that a result gives. -/
def filesOf : InputResult → List OutputFile
  | .ok files => files
  | .error _ => []

/-- The input with the index is there and holds something. -/
def IsSubmitted (inputs : List SourceFile) (index : Nat) : Prop :=
  ∃ input, inputs[index]? = some input ∧ input.isNull = false

/-- The results of the inputs that hold something, in the order of the inputs. -/
def messagesOf (inputs : List (Nat × SourceFile)) (result : Nat → InputResult) :
    List (Nat × InputResult) :=
  (inputs.filter fun n => !n.2.isNull).map fun n => (n.1, result n.1)

/-- What the results of some inputs come to: the failure of the first input that fails, or, if
none does, for each input its files, and no files for an input that holds nothing. -/
inductive IsOutcome (inputs : List SourceFile) (result : Nat → InputResult) :
    Except Failure (List (List OutputFile)) → Prop
  | failed {first : Nat} {failure : Failure} : IsSubmitted inputs first →
      result first = .error failure →
      (∀ index < first, IsSubmitted inputs index → ∃ files, result index = .ok files) →
      IsOutcome inputs result (.error failure)
  | collected {slots : List (List OutputFile)} :
      (∀ index, IsSubmitted inputs index → ∃ files, result index = .ok files) →
      slots.length = inputs.length →
      (∀ (index : Nat) (input : SourceFile), inputs[index]? = some input →
        slots[index]? = some (if input.isNull then [] else filesOf (result index))) →
      IsOutcome inputs result (.ok slots)

/-- In front of the first failure every input succeeds, so no failure comes earlier. -/
theorem first_le_of_eq_error {first : Nat} {failure : Failure}
    (hbefore : ∀ index < first, IsSubmitted inputs index → ∃ files, result index = .ok files)
    (hindex : IsSubmitted inputs index) (hfailure : result index = .error failure) :
    first ≤ index := by
  apply Nat.le_of_not_lt
  intro hlt
  obtain ⟨files, hfiles⟩ := hbefore index hlt hindex
  rw [hfailure] at hfiles
  cases hfiles

/-- The results come to one outcome. -/
theorem IsOutcome.unique {outcome outcome' : Except Failure (List (List OutputFile))}
    (h : IsOutcome inputs result outcome) (h' : IsOutcome inputs result outcome') :
    outcome = outcome' := by
  cases h with
  | @failed first failure hfirst hfailure hbefore =>
    cases h' with
    | @failed first' failure' hfirst' hfailure' hbefore' =>
      have hle : first ≤ first' := first_le_of_eq_error hbefore hfirst' hfailure'
      have hge : first' ≤ first := first_le_of_eq_error hbefore' hfirst hfailure
      obtain rfl : first = first' := Nat.le_antisymm hle hge
      exact congrArg Except.error (Except.error.inj (hfailure.symm.trans hfailure'))
    | collected hall =>
      obtain ⟨files, hfiles⟩ := hall first hfirst
      rw [hfailure] at hfiles
      cases hfiles
  | @collected slots hall hlength hslots =>
    cases h' with
    | @failed first failure hfirst hfailure =>
      obtain ⟨files, hfiles⟩ := hall first hfirst
      rw [hfailure] at hfiles
      cases hfiles
    | @collected slots' _ hlength' hslots' =>
      apply congrArg Except.ok
      apply List.ext_getElem?
      intro index
      cases hinput : inputs[index]? with
      | some input => rw [hslots index input hinput, hslots' index input hinput]
      | none =>
        rw [List.getElem?_eq_none_iff] at hinput
        rw [List.getElem?_eq_none (by omega), List.getElem?_eq_none (by omega)]

/-! ## While results arrive -/

/-- The state after the results with the given indices have arrived. -/
structure Reflects (count : Nat) (result : Nat → InputResult) (arrived : List Nat)
    (c : Collected) : Prop where
  length : c.slots.length = count
  slot : ∀ index < count,
    c.slots[index]? = some (if index ∈ arrived then filesOf (result index) else [])
  none_failed : c.failure = none → ∀ index ∈ arrived, ∃ files, result index = .ok files
  first_failed : ∀ first failure, c.failure = some (first, failure) →
    first ∈ arrived ∧ result first = .error failure ∧
      ∀ index ∈ arrived, ∀ other, result index = .error other → first ≤ index

theorem reflects_nil (count : Nat) (result : Nat → InputResult) :
    Reflects count result [] { slots := List.replicate count [] } where
  length := List.length_replicate
  slot index h := by simp [h]
  none_failed _ _ h := absurd h List.not_mem_nil
  first_failed _ _ h := by simp at h

/-- The failure that is kept comes no later than any that has arrived. -/
theorem Reflects.exists_first_le (h : Reflects count result arrived c) (hindex : index ∈ arrived)
    {other : Failure} (hother : result index = .error other) :
    ∃ first failure, c.failure = some (first, failure) ∧ first ≤ index := by
  cases hfailure : c.failure with
  | none =>
    obtain ⟨files, hfiles⟩ := h.none_failed hfailure index hindex
    rw [hother] at hfiles
    cases hfiles
  | some failed =>
    obtain ⟨first, failure⟩ := failed
    obtain ⟨-, -, hleast⟩ := h.first_failed first failure hfailure
    exact ⟨first, failure, rfl, hleast index hindex other hother⟩

/-- The files of one more input are taken in. -/
theorem Reflects.receive_ok (h : Reflects count result arrived c) {files : List OutputFile}
    (hresult : result index = .ok files) :
    Reflects count result (arrived ++ [index]) (c.receive (index, .ok files)) := by
  refine ⟨?_, fun i hi => ?_, fun hnone i hi => ?_, fun first failure hfailure => ?_⟩
  · rw [Collected.receive, List.length_set, h.length]
  · rw [Collected.receive, List.getElem?_set]
    by_cases hindex : index = i
    · subst hindex
      simp [h.length, hi, hresult, filesOf]
    · rw [if_neg hindex, h.slot i hi]
      simp [Ne.symm hindex]
  · rcases List.mem_append.1 hi with hi | hi
    · exact h.none_failed hnone i hi
    · exact ⟨files, (List.mem_singleton.1 hi) ▸ hresult⟩
  · obtain ⟨hfirst, herror, hleast⟩ := h.first_failed first failure hfailure
    refine ⟨List.mem_append_left _ hfirst, herror, fun i hi other hother => ?_⟩
    rcases List.mem_append.1 hi with hi | hi
    · exact hleast i hi other hother
    · rw [List.mem_singleton.1 hi, hresult] at hother
      cases hother

/-- The failure of one more input is taken in, and kept if no earlier input has failed. -/
theorem Reflects.receive_error (h : Reflects count result arrived c) {failure : Failure}
    (hresult : result index = .error failure) :
    Reflects count result (arrived ++ [index]) (c.receive (index, .error failure)) := by
  have hslot : ∀ i < count,
      c.slots[i]? = some (if i ∈ arrived ++ [index] then filesOf (result i) else []) := by
    intro i hi
    rw [h.slot i hi]
    by_cases hindex : i = index
    · -- a failure leaves the slot without files, whether or not it has arrived before
      subst hindex
      simp [hresult, filesOf]
    · simp [hindex]
  rw [Collected.receive]
  split
  · next hearlier =>
    refine ⟨h.length, hslot, fun hnone => by simp at hnone, fun first failure' hfailure => ?_⟩
    obtain ⟨rfl, rfl⟩ : index = first ∧ failure = failure' := by simpa using hfailure
    refine ⟨by simp, hresult, fun i hi other hother => ?_⟩
    rcases List.mem_append.1 hi with hi | hi
    · obtain ⟨known, knownFailure, hknown, hle⟩ := h.exists_first_le hi hother
      have hlt : index < known := by simpa [hknown] using hearlier
      omega
    · exact Nat.le_of_eq (List.mem_singleton.1 hi).symm
  · next hlater =>
    refine ⟨h.length, hslot, fun hnone => by simp [hnone] at hlater,
      fun first failure' hfailure => ?_⟩
    obtain ⟨hfirst, herror, hleast⟩ := h.first_failed first failure' hfailure
    refine ⟨List.mem_append_left _ hfirst, herror, fun i hi other hother => ?_⟩
    rcases List.mem_append.1 hi with hi | hi
    · exact hleast i hi other hother
    · rw [List.mem_singleton.1 hi]
      simpa [hfailure] using hlater

/-- One more result is taken in. -/
theorem Reflects.receive (h : Reflects count result arrived c) (index : Nat) :
    Reflects count result (arrived ++ [index]) (c.receive (index, result index)) := by
  cases hresult : result index with
  | ok files => exact h.receive_ok hresult
  | error failure => exact h.receive_error hresult

/-- The results of more indices are taken in. -/
theorem Reflects.foldl (h : Reflects count result arrived c) (indices : List Nat) :
    Reflects count result (arrived ++ indices)
      ((indices.map fun index => (index, result index)).foldl Collected.receive c) := by
  induction indices generalizing arrived c with
  | nil => simpa using h
  | cons index rest ih => simpa using ih (h.receive index)

/-! ## When all results have arrived -/

theorem mem_messagesOf {message : Nat × InputResult} :
    message ∈ messagesOf (Progress.indexed inputs 0) result ↔
      IsSubmitted inputs message.1 ∧ message.2 = result message.1 := by
  obtain ⟨index, res⟩ := message
  simp only [messagesOf, Progress.indexed, List.mem_map, List.mem_filter, IsSubmitted]
  constructor
  · rintro ⟨_, ⟨⟨⟨input, i⟩, hmem, rfl⟩, hfull⟩, hmessage⟩
    obtain ⟨rfl, rfl⟩ := Prod.mk.inj hmessage
    exact ⟨⟨input, List.mem_zipIdx_iff_getElem?.1 hmem, by simpa using hfull⟩, rfl⟩
  · rintro ⟨⟨input, hinput, hfull⟩, rfl⟩
    exact ⟨(index, input), ⟨⟨(input, index), List.mem_zipIdx_iff_getElem?.2 hinput, rfl⟩,
      by simpa using hfull⟩, rfl⟩

/-- Once the results of all inputs that hold something have arrived, the state shows their
outcome. -/
theorem Reflects.isOutcome (h : Reflects inputs.length result arrived c)
    (harrived : ∀ index, index ∈ arrived ↔ IsSubmitted inputs index) :
    IsOutcome inputs result (match c.failure with
      | some (_, failure) => .error failure
      | none => .ok c.slots) := by
  cases hfailure : c.failure with
  | none =>
    refine .collected (fun index hindex => ?_) h.length fun index input hinput => ?_
    · exact h.none_failed hfailure index ((harrived index).2 hindex)
    · rw [h.slot index (List.getElem?_eq_some_iff.1 hinput).1]
      cases hnull : input.isNull with
      | true =>
        have hnot : index ∉ arrived := by
          rw [harrived]
          rintro ⟨other, hother, hfull⟩
          obtain rfl : input = other := Option.some.inj (hinput.symm.trans hother)
          rw [hnull] at hfull
          cases hfull
        simp [hnot]
      | false =>
        have hmem : index ∈ arrived := (harrived index).2 ⟨input, hinput, hnull⟩
        simp [hmem]
  | some failed =>
    obtain ⟨first, failure⟩ := failed
    obtain ⟨hfirst, herror, hleast⟩ := h.first_failed first failure hfailure
    refine .failed ((harrived first).1 hfirst) herror fun index hlt hindex => ?_
    cases hresult : result index with
    | ok files => exact ⟨files, rfl⟩
    | error other =>
      have hle := hleast index ((harrived index).2 hindex) other hresult
      omega

variable {messages : List (Nat × InputResult)}
  {outcome : Except Failure (List (List OutputFile))}

theorem isOutcome_ofMessages (h : messages.Perm (messagesOf (Progress.indexed inputs 0) result)) :
    IsOutcome inputs result (ofMessages inputs.length messages) := by
  have hsent (message : Nat × InputResult) (hmem : message ∈ messages) :
      IsSubmitted inputs message.1 ∧ message = (message.1, result message.1) := by
    obtain ⟨hsubmitted, hresult⟩ := mem_messagesOf.1 (h.mem_iff.1 hmem)
    exact ⟨hsubmitted, Prod.ext rfl hresult⟩
  have hresults : messages = (messages.map Prod.fst).map fun index => (index, result index) :=
    calc messages = messages.map id := (List.map_id messages).symm
      _ = messages.map ((fun index => (index, result index)) ∘ Prod.fst) :=
        List.map_congr_left fun message hmem => (hsent message hmem).2
      _ = _ := List.map_map.symm
  have harrived (index : Nat) : index ∈ messages.map Prod.fst ↔ IsSubmitted inputs index := by
    rw [List.mem_map]
    constructor
    · rintro ⟨message, hmem, rfl⟩
      exact (hsent message hmem).1
    · intro hindex
      exact ⟨(index, result index), h.mem_iff.2 (mem_messagesOf.2 ⟨hindex, rfl⟩), rfl⟩
  have hreflects := (reflects_nil inputs.length result).foldl (messages.map Prod.fst)
  rw [← hresults, List.nil_append] at hreflects
  exact hreflects.isOutcome harrived

/-- Whatever the order in which the results of the inputs arrive, what is collected is their
one outcome. -/
theorem ofMessages_eq_iff_isOutcome
    (h : messages.Perm (messagesOf (Progress.indexed inputs 0) result)) :
    ofMessages inputs.length messages = outcome ↔ IsOutcome inputs result outcome := by
  constructor
  · rintro rfl
    exact isOutcome_ofMessages h
  · exact (isOutcome_ofMessages h).unique

/-- Four inputs, of which the second holds nothing. -/
def fourInputs : List SourceFile :=
  [{ path := ⟨"/src/a.js"⟩, base := ⟨"/src"⟩, contents := some "require('p/a')".toUTF8 },
    { path := ⟨"/src/b"⟩, base := ⟨"/src"⟩, contents := none },
    { path := ⟨"/src/c.js"⟩, base := ⟨"/src"⟩, contents := some "require('p/c')".toUTF8 },
    { path := ⟨"/src/d.js"⟩, base := ⟨"/src"⟩, contents := some "require('p/d')".toUTF8 }]

/-- Only the first input finds what it needs. -/
def missingLastTwo : Nat → InputResult
  | 0 => .ok []
  | 2 => .error (.copy ⟨"/node_modules/p/c.js"⟩ .notFound)
  | _ => .error (.copy ⟨"/node_modules/p/d.js"⟩ .notFound)

/-- The failure of the last input arrives first, and that of the third one is kept. -/
theorem ofMessages_eq_iff_isOutcome_missing :
    let messages := [(3, missingLastTwo 3), (0, missingLastTwo 0), (2, missingLastTwo 2)]
    messages.Perm (messagesOf (Progress.indexed fourInputs 0) missingLastTwo) ∧
      IsOutcome fourInputs missingLastTwo
        (.error (.copy ⟨"/node_modules/p/c.js"⟩ .notFound)) ∧
      ofMessages fourInputs.length messages =
        .error (.copy ⟨"/node_modules/p/c.js"⟩ .notFound) := by
  intro messages
  have hperm : messages.Perm (messagesOf (Progress.indexed fourInputs 0) missingLastTwo) :=
    (List.perm_append_singleton (3, missingLastTwo 3) _).symm
  have hcollected : ofMessages fourInputs.length messages =
      .error (.copy ⟨"/node_modules/p/c.js"⟩ .notFound) := rfl
  exact ⟨hperm, (ofMessages_eq_iff_isOutcome hperm).1 hcollected, hcollected⟩

end Collected

namespace Progress

open Collected

variable {t : FileTree} {b : Progress}

theorem le_of_mem_indexed {inputs : List SourceFile} {start : Nat} {n : Nat × SourceFile}
    (h : n ∈ indexed inputs start) : start ≤ n.1 := by
  obtain ⟨⟨input, index⟩, hmem, rfl⟩ := List.mem_map.1 h
  exact List.le_snd_of_mem_zipIdx hmem

theorem messagesOf_null {input : SourceFile} {rest : List (Nat × SourceFile)} {index : Nat}
    (h : input.isNull = true) (result : Nat → InputResult) :
    messagesOf ((index, input) :: rest) result = messagesOf rest result := by
  simp [messagesOf, h]

theorem messagesOf_cons {input : SourceFile} {rest : List (Nat × SourceFile)} {index : Nat}
    (h : input.isNull = false) (result : Nat → InputResult) :
    messagesOf ((index, input) :: rest) result =
      (index, result index) :: messagesOf rest result := by
  simp [messagesOf, h]

/-- A worker that takes the inputs one after the other sends a result for each that holds
something. -/
theorem exists_messagesOf (t : FileTree) (inputs : List SourceFile) (start : Nat) (b : Progress) :
    ∃ result, (discoverAll t (indexed inputs start) b).1 =
      messagesOf (indexed inputs start) result := by
  induction inputs generalizing start b with
  | nil => exact ⟨fun _ => .ok [], rfl⟩
  | cons input rest ih =>
    rw [indexed_cons]
    cases hnull : input.isNull with
    | true =>
      obtain ⟨result, hrest⟩ := ih (start + 1) b
      exact ⟨result, by rw [discoverAll_null hnull, hrest, messagesOf_null hnull]⟩
    | false =>
      obtain ⟨result, hrest⟩ := ih (start + 1) (discover t b input).2
      -- the input itself has its own result, and the indices behind it are greater
      let extended := fun index => if index = start then (discover t b input).1 else result index
      have hbehind : messagesOf (indexed rest (start + 1)) result =
          messagesOf (indexed rest (start + 1)) extended := by
        apply List.map_congr_left
        intro n hn
        have hle := le_of_mem_indexed (List.mem_filter.1 hn).1
        simp only [extended, if_neg (show n.1 ≠ start by omega)]
      refine ⟨extended, ?_⟩
      rw [discoverAll_cons hnull, messagesOf_cons hnull, hrest, hbehind]
      simp [extended]

/-- If the results of a build's inputs arrived in another order, the same would be collected. -/
theorem ofMessages_discoverAll {inputs : List SourceFile} {messages : List (Nat × InputResult)}
    (h : messages.Perm (discoverAll t (indexed inputs 0) b).1) :
    ofMessages inputs.length messages =
      ofMessages inputs.length (discoverAll t (indexed inputs 0) b).1 := by
  obtain ⟨result, hresult⟩ := exists_messagesOf t inputs 0 b
  rw [hresult] at h ⊢
  exact (isOutcome_ofMessages h).unique (isOutcome_ofMessages (.refl _))

end Progress

end Vendoring

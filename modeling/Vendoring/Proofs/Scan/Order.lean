/-
# The specifiers of a file, one behind the other

The two searches of a script may see forms that overlap. What they find is put in
order, and whatever starts inside a specifier that is kept is dropped; since no
place starts both a specifier of a statement and one of a call, the order is
strict. Of a stylesheet nothing is dropped, for there is one search only.
-/

import Vendoring.Proofs.Scan.Forms
import Vendoring.Scan.Basic

namespace Vendoring.Scan

variable {s : List Char} {m n : Match}

theorem Match.Covers.start_le_stop (h : m.Covers s) : m.start ≤ m.stop := by
  obtain ⟨before, behind, -, hstart, hstop⟩ := h
  rw [hstart, hstop, byteLength_append]
  omega

theorem Match.Covers.stop_le (h : m.Covers s) : m.stop ≤ byteLength s := by
  obtain ⟨before, behind, rfl, -, hstop⟩ := h
  rw [hstop, byteLength_append _ behind]
  omega

/-- The second match starts behind the first one and outside of it. -/
structure Match.Precedes (m n : Match) : Prop where
  start_lt : m.start < n.start
  stop_le : m.stop ≤ n.start

/-! ## Dropping overlaps -/

theorem go_sublist (reached : Nat) (ms : List Match) : (dropOverlaps.go reached ms).Sublist ms := by
  induction ms generalizing reached with
  | nil => exact .refl _
  | cons m ms ih =>
    rw [dropOverlaps.go]
    split
    · exact (ih reached).cons m
    · exact (ih m.stop).cons_cons m

theorem dropOverlaps_sublist (ms : List Match) : (dropOverlaps ms).Sublist ms := by
  cases ms with
  | nil => exact .refl _
  | cons m ms => exact (go_sublist m.stop ms).cons_cons m

/-- What is kept behind a place starts behind it. -/
theorem reached_le_of_mem_go {reached : Nat} {ms : List Match}
    (h : ms.Pairwise fun m n => m.start < n.start) (hm : m ∈ dropOverlaps.go reached ms) :
    reached ≤ m.start := by
  induction ms generalizing reached with
  | nil => cases hm
  | cons first ms ih =>
    obtain ⟨hfirst, hms⟩ := List.pairwise_cons.1 h
    rw [dropOverlaps.go] at hm
    split at hm
    · exact ih hms hm
    · next hreached =>
      rcases List.mem_cons.1 hm with rfl | hm
      · omega
      · have := hfirst m ((go_sublist _ ms).mem hm)
        omega

theorem pairwise_go {ms : List Match} (h : ms.Pairwise fun m n => m.start < n.start)
    (reached : Nat) : (dropOverlaps.go reached ms).Pairwise Match.Precedes := by
  induction ms generalizing reached with
  | nil => exact .nil
  | cons m ms ih =>
    obtain ⟨hm, hms⟩ := List.pairwise_cons.1 h
    rw [dropOverlaps.go]
    split
    · exact ih hms reached
    · exact List.pairwise_cons.2 ⟨fun n hn =>
        ⟨hm n ((go_sublist _ ms).mem hn), reached_le_of_mem_go hms hn⟩, ih hms m.stop⟩

theorem pairwise_dropOverlaps {ms : List Match} (h : ms.Pairwise fun m n => m.start < n.start) :
    (dropOverlaps ms).Pairwise Match.Precedes := by
  cases ms with
  | nil => exact .nil
  | cons m ms =>
    obtain ⟨hm, hms⟩ := List.pairwise_cons.1 h
    exact List.pairwise_cons.2 ⟨fun n hn =>
      ⟨hm n ((go_sublist _ ms).mem hn), reached_le_of_mem_go hms hn⟩, pairwise_go hms m.stop⟩

theorem go_of_pairwise {ms : List Match} (h : ms.Pairwise Match.Precedes) {reached : Nat}
    (hreached : ∀ m ∈ ms, reached ≤ m.start) : dropOverlaps.go reached ms = ms := by
  induction ms generalizing reached with
  | nil => rfl
  | cons m ms ih =>
    obtain ⟨hm, hms⟩ := List.pairwise_cons.1 h
    have hstart := hreached m List.mem_cons_self
    rw [dropOverlaps.go, if_neg (by omega), ih hms fun n hn => (hm n hn).stop_le]

/-- Where nothing overlaps, nothing is dropped. -/
theorem dropOverlaps_of_pairwise {ms : List Match} (h : ms.Pairwise Match.Precedes) :
    dropOverlaps ms = ms := by
  cases ms with
  | nil => rfl
  | cons m ms =>
    obtain ⟨hm, hms⟩ := List.pairwise_cons.1 h
    rw [dropOverlaps, go_of_pairwise hms fun n hn => (hm n hn).stop_le]

/-! ## Whole files -/

/-- One search finds its specifiers in the order of their places. -/
theorem pairwise_start_matchesOf {recognise : Option Char → List Char → Option (Seen Occurrence)}
    (hfits : ∀ before s seen, recognise before s = some seen → seen.Fits s) (s : List Char) :
    (matchesOf recognise s).Pairwise fun m n => m.start < n.start := by
  refine (pairwise_matchesOf hfits s).imp_of_mem fun {m n} hm _ hlt => ?_
  have := (covers_of_mem_matchesOf hfits hm).start_le_stop
  omega

theorem fits_atBoundary_statement? (before : Option Char) (s : List Char) (seen : Seen Occurrence)
    (h : atBoundary statement? before s = some seen) : seen.Fits s :=
  fits_atBoundary (fun _ _ => Seen.fits_of_statement) h

theorem fits_atBoundary_call? (before : Option Char) (s : List Char) (seen : Seen Occurrence)
    (h : atBoundary call? before s = some seen) : seen.Fits s :=
  fits_atBoundary (fun _ _ => Seen.fits_of_call) h

/-- Sorting by places is strict where no two matches share their place. -/
theorem pairwise_start_sortBy {found : List Match} (h : found.Pairwise fun m n => m.start ≠ n.start) :
    (sortBy (fun a b => a.start ≤ b.start) found).Pairwise fun m n => m.start < n.start := by
  have hle : (sortBy (fun a b : Match => a.start ≤ b.start) found).Pairwise
      fun m n => decide (m.start ≤ n.start) = true :=
    pairwise_sortBy (by simp only [decide_eq_true_eq]; omega)
      (by simp only [Bool.or_eq_true, decide_eq_true_eq]; omega) found
  have hne : (sortBy (fun a b : Match => a.start ≤ b.start) found).Pairwise
      fun m n => m.start ≠ n.start :=
    ((sortBy_perm found).pairwise_iff fun h => Ne.symm h).2 h
  refine (hle.and hne).imp fun ⟨hle, hne⟩ => ?_
  rw [decide_eq_true_eq] at hle
  omega

theorem pairwise_scanScript (s : List Char) : (scanScript s).Pairwise Match.Precedes :=
  pairwise_dropOverlaps <| pairwise_start_sortBy <| List.pairwise_append.2
    ⟨(pairwise_start_matchesOf fits_atBoundary_statement? s).imp Nat.ne_of_lt,
      (pairwise_start_matchesOf fits_atBoundary_call? s).imp Nat.ne_of_lt,
      fun _ hm _ hn => start_ne_start hm hn⟩

theorem covers_of_mem_scanScript (h : m ∈ scanScript s) : m.Covers s := by
  have hfound := mem_sortBy.1 ((dropOverlaps_sublist _).mem h)
  rcases List.mem_append.1 hfound with hstatement | hcall
  · exact covers_of_mem_matchesOf fits_atBoundary_statement? hstatement
  · exact covers_of_mem_matchesOf fits_atBoundary_call? hcall

theorem pairwise_matchesOf_styleImport? (s : List Char) :
    (matchesOf styleImport? s).Pairwise Match.Precedes :=
  (pairwise_start_matchesOf (fun _ _ _ => fits_styleImport?) s).imp₂
    (fun _ _ hlt hstop => ⟨hlt, Nat.le_of_lt hstop⟩)
    (pairwise_matchesOf (fun _ _ _ => fits_styleImport?) s)

/-- Of a stylesheet nothing is dropped. -/
theorem scanStylesheet_eq_matchesOf (s : List Char) :
    scanStylesheet s = matchesOf styleImport? s :=
  dropOverlaps_of_pairwise (pairwise_matchesOf_styleImport? s)

theorem pairwise_scanStylesheet (s : List Char) : (scanStylesheet s).Pairwise Match.Precedes :=
  scanStylesheet_eq_matchesOf s ▸ pairwise_matchesOf_styleImport? s

theorem covers_of_mem_scanStylesheet (h : m ∈ scanStylesheet s) : m.Covers s :=
  covers_of_mem_matchesOf (fun _ _ _ => fits_styleImport?) ((dropOverlaps_sublist _).mem h)

/-- The specifiers of a script or a stylesheet stand where the text holds them, each
behind the one before. -/
theorem scan_separate {kind : FileKind} (hkind : kind = .script ∨ kind = .stylesheet)
    (content : String) :
    (∀ m ∈ scan kind content, m.Covers content.toList) ∧
      (scan kind content).Pairwise Match.Precedes := by
  rcases hkind with rfl | rfl
  · exact ⟨fun m => covers_of_mem_scanScript, pairwise_scanScript _⟩
  · exact ⟨fun m => covers_of_mem_scanStylesheet, pairwise_scanStylesheet _⟩

end Vendoring.Scan

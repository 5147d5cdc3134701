/-
# Valid settings

However settings are put together, the output directory for packages has a name
of one segment.
-/

import Vendoring.Settings

namespace Vendoring.Settings

/-- What every way of making settings sees to. -/
structure IsValid (s : Settings) : Prop where
  dirname_ne : s.npmDirname ≠ ""
  no_slash : '/' ∉ s.npmDirname.toList
  no_backslash : '\\' ∉ s.npmDirname.toList

variable {s s' : Settings}

/-- The name is a step of a path, unless it is the dot for a directory itself. -/
theorem IsValid.not_padding (h : s.IsValid) (hdot : s.npmDirname ≠ ".") :
    Path.isPadding s.npmDirname.toList = false := by
  rw [Path.isPadding, Bool.or_eq_false_iff, decide_eq_false_iff_not, decide_eq_false_iff_not]
  refine ⟨by simpa using h.dirname_ne, fun htext => hdot ?_⟩
  exact String.toList_injective (htext.trans (by decide))

theorem isValid_forProject (root : Path) : (forProject root).IsValid where
  dirname_ne := show defaultNpmDirname ≠ "" by decide
  no_slash := show '/' ∉ defaultNpmDirname.toList by decide
  no_backslash := show '\\' ∉ defaultNpmDirname.toList by decide

theorem isValid_withNpmDirname {dirname : String} (hok : s.withNpmDirname dirname = .ok s') :
    s'.IsValid := by
  unfold Settings.withNpmDirname at hok
  simp only at hok
  split at hok
  · simp at hok
  · next hname =>
    simp only [Bool.or_eq_true, decide_eq_true_eq, not_or] at hname
    obtain rfl := Except.ok.inj hok
    constructor
    · simpa using hname.1.1
    · simpa using hname.1.2
    · simpa using hname.2

theorem IsValid.withFullExtract (h : s.IsValid) (entries : List String) :
    (s.withFullExtract entries).IsValid := { h with }

theorem IsValid.withJobs (h : s.IsValid) (jobs : Nat) : (s.withJobs jobs).IsValid := { h with }

theorem IsValid.withProjectRoot (h : s.IsValid) (root : Path) :
    (s.withProjectRoot root).IsValid := { h with }

/-- Whatever the environment holds, settings that can be read are valid. -/
theorem isValid_load {env : Environment} {workingDir : Path} (h : load env workingDir = .ok s) :
    s.IsValid := by
  unfold load at h
  extract_lets base rest at h
  -- what follows leaves the name alone
  have hrest (named : Settings) (hnamed : named.IsValid) (h : rest named = .ok s) :
      s.IsValid := by
    unfold rest at h
    extract_lets listed at h
    have hlisted : listed.IsValid := by
      unfold listed
      split
      · exact { hnamed with }
      · exact hnamed
    obtain rfl := Except.ok.inj h
    split
    · exact hlisted.withJobs _
    · exact hlisted
  split at h
  · next dirname _ =>
    cases hnamed : base.withNpmDirname dirname with
    | error failure => simp [hnamed, bind, Except.bind] at h
    | ok named =>
      rw [hnamed] at h
      exact hrest named (isValid_withNpmDirname hnamed) h
  · exact hrest base (isValid_forProject _) h

end Vendoring.Settings

/-
# Sessions

What the walks of a build share: the catalog, what is remembered about the
references of files, and which files and bundles have been claimed. A file is
written for whoever claims it first, so everybody who reaches it later leaves it
alone.
-/

import Vendoring.Catalog.Survey
import Vendoring.Graph.Component
import Vendoring.Placement

namespace Vendoring

/-- The state that the builds of one session share. -/
structure Session where
  /-- The settings. -/
  settings : Settings
  /-- The installed packages, as they were when the session started. -/
  catalog : Catalog
  /-- What files import. -/
  references : Memo Reference := ∅
  /-- What manifests declare. -/
  components : Memo ComponentRef := ∅
  /-- The files of packages that have been claimed. -/
  claimedFiles : PathSet := ∅
  /-- The directories of the bundles that have been claimed. -/
  claimedBundles : PathSet := ∅

namespace Session

/-- The loader that sessions use. -/
def loader : Loader := {}

/-- A session over a file tree in which nothing has been claimed. -/
def start (t : FileTree) (settings : Settings) : Session where
  settings := settings
  catalog := Catalog.survey t loader settings.packageTree

variable (s : Session)

/-- How references are resolved. -/
def resolver (t : FileTree) : Resolver where
  tree := t
  loader := loader
  catalog := s.catalog

/-- How files are placed. -/
def planner : Planner where
  catalog := s.catalog
  npmDirname := s.settings.npmDirname

/-- Claim a file. Nothing comes back if it has been claimed before. -/
def claimFile? (p : Path) : Option Session :=
  if s.claimedFiles.contains p then none
  else some { s with claimedFiles := s.claimedFiles.insert p () }

/-- Claim a bundle by its directory. Nothing comes back if it has been claimed
before. -/
def claimBundle? (p : Path) : Option Session :=
  if s.claimedBundles.contains p then none
  else some { s with claimedBundles := s.claimedBundles.insert p () }

/-- The files reachable from a file, and the session that remembers them. -/
def dependencyGraph (t : FileTree) (entry : Path) (content : Option String) :
    DependencyGraph × Session :=
  let (g, m) := (s.resolver t).dependencyGraph entry content s.references
  (g, { s with references := m })

/-- The bundles reachable from a manifest, and the session that remembers them. -/
def componentGraph (t : FileTree) (manifest : Path) (content : Option String) :
    ComponentGraph × Session :=
  let (g, m) := (s.resolver t).componentGraph manifest content s.components
  (g, { s with components := m })

end Session

end Vendoring

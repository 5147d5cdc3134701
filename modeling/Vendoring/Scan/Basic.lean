/-
# Specifiers of a file

The specifiers in a text by the kind of its file, and those among them that a
file depends on. Modules that the platform has built in are no dependencies, and
manifests have none of their own, since their components are looked up apart.
-/

import Vendoring.FileKind
import Vendoring.Scan.Manifest
import Vendoring.Scan.Stylesheet

namespace Vendoring.Scan

open Text

/-- The specifiers in the text of a file. -/
def scan (kind : FileKind) (content : String) : List Match :=
  match kind with
  | .script => scanScript content.toList
  | .stylesheet => scanStylesheet content.toList
  | .manifest => scanManifest content.toList
  | .other => []

/-- The modules that the platform has built in. -/
def builtinModules : List String := [
  "assert", "buffer", "child_process", "cluster", "console", "constants", "crypto", "dgram",
  "dns", "domain", "events", "fs", "http", "https", "module", "net", "os", "path", "process",
  "punycode", "querystring", "readline", "repl", "stream", "string_decoder", "sys", "timers",
  "tls", "tty", "url", "util", "v8", "vm", "worker_threads", "zlib"]

/-- Whether a specifier names a built-in module or something inside one. -/
def isBuiltin (specifier : String) : Bool :=
  let s := specifier.toList
  "node:".toList.isPrefixOf s || String.ofList (s.takeWhile (· ≠ '/')) ∈ builtinModules

/-- The specifiers that a file depends on, each once, in the order in which they
first occur. -/
def dependencies (path : Path) (content : String) : List String :=
  let found := match FileKind.ofPath path with
    | .script => scanScript content.toList
    | .stylesheet => scanStylesheet content.toList
    | .manifest | .other => []
  ((found.map (·.specifier)).filter fun s => !isAllBlank s && !isBuiltin s).eraseDups

end Vendoring.Scan

/-
# Failures

Everything that can go wrong in a build, by cause, and the text in which it is
reported. A failure of the file tree keeps its own cause, so the text names the
file and then the cause.
-/

import Vendoring.Path.Basic

namespace Vendoring

/-- Why the file tree refused an operation. -/
inductive FileError
  | notFound
  | alreadyExists
  | notADirectory
  | isADirectory
  | nameTooLong
  | busy
  /-- A path holds the character that ends texts. -/
  | nulInPath
  /-- A file that was to be read as text is not valid UTF-8. -/
  | notText
  /-- A cause known only by its description. -/
  | described (text : String)
  deriving DecidableEq, Repr

namespace FileError

/-- The description of the cause. -/
def message : FileError → String
  | notFound => "No such file or directory (os error 2)"
  | alreadyExists => "File exists (os error 17)"
  | notADirectory => "Not a directory (os error 20)"
  | isADirectory => "Is a directory (os error 21)"
  | nameTooLong => "File name too long (os error 36)"
  | busy => "Device or resource busy (os error 16)"
  | nulInPath => "file name contained an unexpected NUL byte"
  | notText => "stream did not contain valid UTF-8"
  | described text => text

end FileError

/-- Why a build or one of its parts failed. -/
inductive Failure
  /-- The file tree failed where no file is to blame. -/
  | files (cause : FileError)
  /-- A setting is not acceptable. -/
  | settings (text : String)
  /-- The installed packages could not be listed. -/
  | catalog (text : String)
  /-- A reference could not be resolved. -/
  | resolution (text : String)
  /-- A dependency could not be read. -/
  | copy (path : Path) (cause : FileError)
  /-- An output could not be written. -/
  | write (path : Path) (cause : FileError)
  /-- A file or directory that was asked for is missing. -/
  | missing (text : String)
  /-- A worker did not answer. -/
  | worker (text : String)
  /-- Anything else. -/
  | other (text : String)
  deriving DecidableEq, Repr

namespace Failure

/-- The text in which the failure is reported. -/
def message : Failure → String
  | files cause => "I/O Error: " ++ cause.message
  | settings text => "Configuration Error: " ++ text
  | catalog text => "Catalog Error: " ++ text
  | resolution text => "Resolution Error: " ++ text
  | copy path cause => "Failed to copy dependency '" ++ path.text ++ "': " ++ cause.message
  | write path cause => "Failed to write output '" ++ path.text ++ "': " ++ cause.message
  | missing text => "Resource Not Found: " ++ text
  | worker text => "Worker Error: " ++ text
  | other text => "Generic Error: " ++ text

end Failure

end Vendoring

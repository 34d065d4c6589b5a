import Moire.Json.Reader
import Moire.Json.Record

/-!
# Forms of documents

How documents are put into text and read from it is a parameter of what is done with them. A form
is a writer, a reader, and the readings of a real and of a real that may be missing. The form that
runs is `Json.Form.standard`.
-/

namespace Moire.Json

/-- How documents are written and read. -/
structure Form where
  /-- The text of a document. -/
  write : Json → String
  /-- The document in a text. -/
  read? : String → Option Json
  /-- A real in a document. -/
  real? : Json → Option Float
  /-- A real in a document that may be missing. -/
  optionalReal? : Json → Option (Option Float)

/-- Documents with one member per line. -/
def Form.standard : Form where
  write := pretty
  read? := parse?
  real? := Json.real?
  optionalReal? value := nullable Json.real? (some value)

end Moire.Json

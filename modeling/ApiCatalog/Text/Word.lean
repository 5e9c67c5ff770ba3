import ApiCatalog.Text.CodeRange
import ApiCatalog.Text.WordTable
/-!
# Word characters

The characters that names are made of: letters, digits, marks and connectors of any script.
-/

namespace ApiCatalog.Text

def isWordChar (c : Char) : Bool :=
  c.isAlphanum || c == '_' || (0x80 ≤ c.toNat && CodeRange.covers wordTable c)

end ApiCatalog.Text

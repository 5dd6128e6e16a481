import GraphLint.Data.Yaml.Tokens
import GraphLint.Data.Yaml.Value

/-!
# YAML

Reading YAML texts.  A text is made of tokens; the tokens write the nodes of one
document; and the root of these stands for a value.
-/

set_option autoImplicit false

namespace GraphLint.Yaml

/-- The value that a text writes; none if it cannot be read. -/
def parse? (text : String) : Option Datum :=
  (Node.ofTokens? (tokens text)).bind value?

end GraphLint.Yaml

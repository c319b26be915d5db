import Commission.NameMap
import Commission.Value

/-!
What a rule is evaluated against: values by name.
-/
namespace Commission

abbrev Context : Type := NameMap Value

end Commission

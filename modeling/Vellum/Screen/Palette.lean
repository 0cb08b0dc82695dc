import Vellum.Colour.Style
import Vellum.Screen.Escape
/-! The colour of each style. -/
namespace Vellum

def Style.colour? : Style → Option Colour
  | .plain => none
  | .control => some ⟨255, 85, 85⟩
  | .comment | .blockComment => some ⟨98, 114, 164⟩
  | .keyword => some ⟨255, 121, 198⟩
  | .typeName => some ⟨139, 233, 253⟩
  | .quoted => some ⟨241, 250, 140⟩
  | .number => some ⟨189, 147, 249⟩
  | .found => some ⟨80, 250, 123⟩

end Vellum

/-! What a user can choose. -/
namespace Vellum

structure Settings where
  tabStop : Nat := 8
  quitPresses : Nat := 3
  messageSeconds : Nat := 5
  showWelcome : Bool := true
  deriving DecidableEq, Repr

namespace Settings

def normalize (s : Settings) : Settings :=
  { s with tabStop := max s.tabStop 1, quitPresses := max s.quitPresses 1 }

def messageMillis (s : Settings) : Nat := s.messageSeconds * 1000

end Settings
end Vellum

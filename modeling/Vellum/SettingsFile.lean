import Vellum.Settings
import Vellum.Storage.FileTree
import Vellum.Toml.Reader
/-! The settings file: TOML with four known keys, all optional; other keys are
ignored. A file that cannot be used never stops the editor: its defaults stand. -/
namespace Vellum

inductive SettingsFault where
  | unreadable (path : String) (cause : Fault)
  | invalid (path : String)
  deriving DecidableEq, Repr

def SettingsFault.message : SettingsFault → String
  | .unreadable path cause => "failed to read config file " ++ path ++ ": " ++ cause.message
  | .invalid path => "invalid config format in " ++ path ++ ": "

namespace Settings

def count? (entries : Toml.Entries) (key : String) (default : Nat) : Option Nat :=
  match entries.get? key with
  | none => some default
  | some (.value (.integer n)) => if 0 ≤ n then some n.toNat else none
  | some _ => none

def flag? (entries : Toml.Entries) (key : String) (default : Bool) : Option Bool :=
  match entries.get? key with
  | none => some default
  | some (.value (.boolean b)) => some b
  | some _ => none

def ofEntries? (entries : Toml.Entries) : Option Settings := do
  let plain : Settings := {}
  some (normalize
    { tabStop := ← count? entries "tab_stop" plain.tabStop
      quitPresses := ← count? entries "quit_times" plain.quitPresses
      messageSeconds := ← count? entries "message_ttl_secs" plain.messageSeconds
      showWelcome := ← flag? entries "show_welcome" plain.showWelcome })

def ofText? (text : String) : Option Settings := (Toml.parse? text).bind ofEntries?

def ofRead (path : String) : Except Fault Bytes → Except SettingsFault Settings
  | .error cause => .error (.unreadable path cause)
  | .ok bytes =>
    match Utf8.decode? bytes with
    | none => .error (.unreadable path .notUtf8)
    | some text =>
      match ofText? text with
      | none => .error (.invalid path)
      | some settings => .ok settings

def read (tree : FileTree) (path : String) : Except SettingsFault Settings :=
  ofRead path (tree.read path)

def orDefault : Except SettingsFault Settings → Settings
  | .ok settings => settings
  | .error _ => {}

def load (tree : FileTree) (usual : String) (named : Option String) : Settings :=
  match named with
  | some path => orDefault (read tree path)
  | none => if tree.contains usual then orDefault (read tree usual) else {}

end Settings
end Vellum

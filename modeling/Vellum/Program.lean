import Vellum.Options
import Vellum.Session
import Vellum.SettingsFile
/-! A whole run of the program, from its arguments to its exit code, on a terminal
whose input is known beforehand. -/
namespace Vellum

structure Launch where
  arguments : List String
  tree : FileTree
  home : String
  window : Window
  answer : Bytes
  keys : Bytes
  terminated : Bool
  deriving DecidableEq, Repr

structure Exit where
  code : Nat
  output : Option Bytes
  complaint : Option String
  tree : FileTree
  deriving DecidableEq, Repr

namespace Program

def settingsPath (home : String) : String := home ++ "/scribe/config.toml"

def chooseSettings (options : Options) (fromFile : Settings) : Settings :=
  match options.tabStop with
  | some n => { fromFile with tabStop := max n 1 }
  | none => fromFile

def openEditor (settings : Settings) (window : Window) (file : Option String)
    (outcome : String → Except Fault Bytes) (now : Nat := 0) : Except Impasse Editor := do
  let blank := Editor.start (.blank settings.tabStop) settings window now
  match file with
  | none => .ok blank
  | some path =>
    match ← Document.ofRead path settings.tabStop (outcome path) with
    | .ok document => .ok (.start document settings window now)
    | .error fault => .ok (blank.notify ("Can't open " ++ path ++ ": " ++ fault.message))

def logComplaint (path : String) (fault : Fault) : String :=
  "Error: cannot create log file " ++ path ++ ": " ++ fault.message ++ "\n"

def windowComplaint (fault : TerminalFault) : String :=
  "Error: cannot determine window size: " ++ fault.message ++ "\n"

def sessionComplaint (fault : TerminalFault) : String :=
  "Error: editor session failed: " ++ fault.message ++
    (match fault.cause? with
      | some cause => ": " ++ cause.message
      | none => "") ++ "\n"

def farewell (dialect : Dialect) : Except Impasse Bytes := do
  let home ← dialect.moveTo 0 0
  .ok (dialect.clearScreen ++ home ++ dialect.showCursor)

def breakdown (dialect : Dialect) : Bytes := dialect.showCursor ++ dialect.showCursor

def overflowCode : Nat := 101

/-- The window, what was written to find it, and the input left: the terminal is asked only if it
does not give the window by itself. What its answer leaves over stands directly before the keys, so
the two together may make up one key. -/
def findWindow (launch : Launch) : Except TerminalFault Window × Bytes × Script :=
  if 0 < launch.window.rows ∧ 0 < launch.window.cols then
    (.ok launch.window, [], .ofBytes launch.keys)
  else
    let (window, written, left) := Window.ask .whole (.ofBytes launch.answer)
    (window, written, left ++ .ofBytes launch.keys)

section
variable (dialect : Dialect)

def breakOff (output : Bytes) (tree : FileTree) : Impasse → Option Exit
  | .overflow _ => some ⟨overflowCode, some (output ++ breakdown dialect), none, tree⟩
  | .endless => none

def part (output : Bytes) (tree : FileTree) : Option Exit :=
  match farewell dialect with
  | .ok words => some ⟨0, some (output ++ words), none, tree⟩
  | .error impasse => breakOff dialect output tree impasse

def conclude (terminated : Bool) (output : Bytes) (tree : FileTree) : Session.Ending → Option Exit
  | .left => part dialect output tree
  | .failed fault =>
    if terminated then part dialect output tree
    else some ⟨1, some (output ++ breakdown dialect), some (sessionComplaint fault), tree⟩
  | .broken impasse => breakOff dialect output tree impasse

def runSession (launch : Launch) (options : Options) (tree : FileTree) : Option Exit :=
  let settings :=
    chooseSettings options (Settings.load tree (settingsPath launch.home) options.settings)
  match findWindow launch with
  | (.error fault, written, _) =>
    some ⟨1, some (written ++ breakdown dialect), some (windowComplaint fault), tree⟩
  | (.ok window, written, script) =>
    match openEditor settings window options.file tree.read with
    | .error impasse => breakOff dialect written tree impasse
    | .ok editor =>
      let result := Session.run { dialect, windows := [some window] } editor tree script
      conclude dialect launch.terminated (written ++ result.session.frames.flatten) result.session.tree
        result.ending

/- `none` is a run that has no end. -/
def run (launch : Launch) : Option Exit :=
  match Options.parse launch.arguments with
  | .error stop => some ⟨if stop.isComplaint then 1 else 0, none, none, launch.tree⟩
  | .ok options =>
    match options.log with
    | none => runSession dialect launch options launch.tree
    | some path =>
      match launch.tree.write path [] with
      | .error fault => some ⟨1, none, some (logComplaint path fault), launch.tree⟩
      | .ok tree => runSession dialect launch options tree

end

end Program
end Vellum

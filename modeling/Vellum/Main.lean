import Vellum.Program
/-! The program on a real terminal, which must already pass keys on as they are
typed. The window is found by asking the terminal. -/
namespace Vellum

def Fault.ofSystem : IO.Error → Fault
  | .noFileOrDirectory .. => .notFound
  | .inappropriateType .. => .isFolder
  | .unexpectedEof => .endOfInput
  | e => .reported (toString e)

def attempt {α : Type} (action : IO α) : IO (Except Fault α) := do
  try
    let result ← action
    return .ok result
  catch e => return .error (.ofSystem e)

def readFile (path : String) : IO (Except Fault Bytes) := attempt do
  return (← IO.FS.readBinFile path).toList

def writeFile (path : String) (bytes : Bytes) : IO (Except Fault Unit) :=
  attempt (IO.FS.writeBinFile path ⟨bytes.toArray⟩)

def writeOut (bytes : Bytes) : IO Unit := do
  let out ← IO.getStdout
  out.write ⟨bytes.toArray⟩
  out.flush

def readByte : IO (Option UInt8) := do
  return (← (← IO.getStdin).read 1).toList.head?

def readReply : Nat → IO Script
  | 0 => return []
  | room + 1 => do
    match ← readByte with
    | none => return []
    | some b =>
      if b = 82 then return [some b]
      else return some b :: (← readReply room)

/-- The next key; `none` at the end of the input. The bytes of an escape sequence arrive together,
so no time is kept between them. -/
partial def nextKey (decoding : Decoding) : IO (Option Key) := do
  match ← readByte with
  | none => return none
  | some b =>
    match decoding.step (some b) with
    | .inl key => return some key
    | .inr decoding => nextKey decoding

partial def converse (window : Window) (editor : Editor) : IO Session.Ending := do
  let now ← IO.monoMsNow
  match Frame.refresh Escape.standard ({ editor with now }.resize window) now with
  | .error impasse => return .broken impasse
  | .ok (editor, frame) =>
    writeOut frame
    match ← nextKey .idle with
    | none => return .failed (.device .endOfInput)
    | some key =>
      match { editor with now := ← IO.monoMsNow }.react key with
      | .error impasse => return .broken impasse
      | .ok (.done editor left) => if left then return .left else converse window editor
      | .ok (.store path bytes resume) => converse window (resume (← writeFile path bytes))

def usage : String :=
  "Usage: scribe [OPTIONS] [FILE]\n\n" ++
  "  -c, --config <CONFIG>      Config file to use instead of the per-user default\n" ++
  "      --log-file <LOG_FILE>  Write log records to this file\n" ++
  "      --tab-stop <TAB_STOP>  Override the configured tab stop\n" ++
  "  -h, --help                 Print help\n" ++
  "  -V, --version              Print version\n"

def explain : Options.Stop → IO UInt32
  | .help => do IO.print usage; return 0
  | .version => do IO.println "scribe 0.1.0"; return 0
  | _ => do IO.eprint usage; return 1

def settingsHome : IO String := do
  match ← IO.getEnv "XDG_CONFIG_HOME" with
  | some home => if Path.isAbsolute home then return home
  | none => pure ()
  return (← IO.getEnv "HOME").getD "" ++ "/.config"

def loadSettings (options : Options) : IO Settings := do
  let path ← match options.settings with
    | some path => pure path
    | none => do pure (Program.settingsPath (← settingsHome))
  return Program.chooseSettings options (Settings.orDefault (Settings.ofRead path (← readFile path)))

/-- Ends the program without an answer; where work has no end, so has this. -/
partial def breakOff (impasse : Impasse) : IO UInt32 := do
  match impasse with
  | .overflow overflow =>
    writeOut (Program.breakdown Escape.standard)
    IO.eprintln overflow.message
    return Program.overflowCode.toUInt32
  | .endless => breakOff impasse

def leave : IO UInt32 := do
  match Program.farewell Escape.standard with
  | .ok words => do writeOut words; return 0
  | .error impasse => breakOff impasse

def start (options : Options) : IO UInt32 := do
  if let some path := options.log then
    if let .error fault ← writeFile path [] then
      IO.eprint (Program.logComplaint path fault)
      return 1
  let settings ← loadSettings options
  writeOut Window.question
  match (Window.probe (← readReply Window.replyRoom)).1 with
  | .error fault =>
    writeOut (Program.breakdown Escape.standard)
    IO.eprint (Program.windowComplaint fault)
    return 1
  | .ok window =>
    let outcome ← match options.file with
      | some path => readFile path
      | none => pure (.ok [])
    let now ← IO.monoMsNow
    let ending ← match Program.openEditor settings window options.file (fun _ => outcome) now with
      | .error impasse => pure (.broken impasse)
      | .ok editor => converse window editor
    match ending with
    | .left => leave
    | .failed fault =>
      writeOut (Program.breakdown Escape.standard)
      IO.eprint (Program.sessionComplaint fault)
      return 1
    | .broken impasse => breakOff impasse

end Vellum

def main (arguments : List String) : IO UInt32 :=
  match Vellum.Options.parse arguments with
  | .error stop => Vellum.explain stop
  | .ok options => Vellum.start options

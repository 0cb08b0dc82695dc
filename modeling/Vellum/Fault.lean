/-! What can go wrong outside the editor, and the words for it. -/
namespace Vellum

inductive Fault where
  | notFound
  | isFolder
  | notFolder
  | nameTooLong
  | nulInName
  | noName
  | endOfInput
  | notUtf8
  | reported (text : String)
  deriving DecidableEq, Repr

def Fault.message : Fault → String
  | .notFound => "No such file or directory (os error 2)"
  | .isFolder => "Is a directory (os error 21)"
  | .notFolder => "Not a directory (os error 20)"
  | .nameTooLong => "File name too long (os error 36)"
  | .nulInName => "file name contained an unexpected NUL byte"
  | .noName => "no filename"
  | .endOfInput => "unexpected end of file"
  | .notUtf8 => "stream did not contain valid UTF-8"
  | .reported text => text

inductive TerminalFault where
  | rawMode (cause : Fault)
  | restore (cause : Fault)
  | windowSize
  | device (cause : Fault)
  deriving DecidableEq, Repr

def TerminalFault.message : TerminalFault → String
  | .rawMode cause => "unable to enter raw mode: " ++ cause.message
  | .restore cause => "unable to restore terminal mode: " ++ cause.message
  | .windowSize => "unable to determine window size"
  | .device cause => "terminal I/O error: " ++ cause.message

def TerminalFault.cause? : TerminalFault → Option Fault
  | .rawMode cause | .restore cause | .device cause => some cause
  | .windowSize => none

end Vellum

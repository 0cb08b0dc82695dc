import Vellum.Text.Decimal
import Vellum.Text.Utf8
/-! The command line: an optional file, and options that each take a value. A
value is checked when the next argument is taken up, or at the end; so an unknown
argument is reported before a bad value that stands in front of it. -/
namespace Vellum

structure Options where
  file : Option String := none
  settings : Option String := none
  log : Option String := none
  tabStop : Option Nat := none
  deriving DecidableEq, Repr

namespace Options

inductive Stop where
  | help
  | version
  | unknown
  | noValue
  | badNumber
  | repeated
  | needlessValue
  deriving DecidableEq, Repr

def Stop.isComplaint : Stop → Bool
  | .help | .version => false
  | _ => true

inductive Slot where
  | file
  | settings
  | log
  | tabStop
  deriving DecidableEq, Repr

structure Reading where
  options : Options := {}
  pending : Option (Slot × Option String) := none
  fileGiven : Bool := false
  filesOnly : Bool := false
  deriving DecidableEq, Repr

def path? (value : String) : Except Stop String :=
  if value = "" then .error .noValue else .ok value

def isGiven (options : Options) : Slot → Bool
  | .file => options.file.isSome
  | .settings => options.settings.isSome
  | .log => options.log.isSome
  | .tabStop => options.tabStop.isSome

def put (options : Options) (slot : Slot) (value : String) : Except Stop Options :=
  match slot with
  | .file => do .ok { options with file := some (← path? value) }
  | .settings => do .ok { options with settings := some (← path? value) }
  | .log => do .ok { options with log := some (← path? value) }
  | .tabStop =>
    match Decimal.size? (Utf8.encode value) with
    | some n => .ok { options with tabStop := some n }
    | none => .error .badNumber

def store (options : Options) (slot : Slot) (value : String) : Except Stop Options :=
  if options.isGiven slot then .error .repeated else options.put slot value

namespace Reading

def settle (r : Reading) : Except Stop Reading :=
  match r.pending with
  | none => .ok r
  | some (_, none) => .error .noValue
  | some (slot, some value) => do
    .ok { r with options := ← r.options.store slot value, pending := none }

def option (r : Reading) (slot : Slot) (attached : Option String) : Except Stop Reading := do
  let r ← r.settle
  match attached with
  | some value => .ok { r with options := ← r.options.store slot value }
  | none => .ok { r with pending := some (slot, none) }

def flag (r : Reading) (stop : Stop) (attached : Option String) : Except Stop Reading :=
  if attached.isSome then .error .needlessValue
  else do
    let _ ← r.settle
    .error stop

def long (r : Reading) (name : String) (attached : Option String) : Except Stop Reading :=
  if name = "config" then r.option .settings attached
  else if name = "log-file" then r.option .log attached
  else if name = "tab-stop" then r.option .tabStop attached
  else if name = "help" then r.flag .help attached
  else if name = "version" then r.flag .version attached
  else .error .unknown

def short (r : Reading) (letter : Char) (rest : List Char) : Except Stop Reading :=
  if letter = 'c' then
    r.option .settings (match rest with
      | [] => none
      | '=' :: value => some (String.ofList value)
      | value => some (String.ofList value))
  else if letter = 'h' then r.flag .help none
  else if letter = 'V' then r.flag .version none
  else .error .unknown

def positional (r : Reading) (argument : String) : Except Stop Reading :=
  if r.fileGiven then .error .unknown
  else do
    let r ← r.settle
    .ok { r with pending := some (.file, some argument), fileGiven := true }

def argument (r : Reading) (argument : String) : Except Stop Reading :=
  if r.filesOnly then r.positional argument
  else
    match argument.toList with
    | ['-', '-'] => .ok { r with filesOnly := true }
    | '-' :: '-' :: text =>
      match text.span (· ≠ '=') with
      | (name, []) => r.long (String.ofList name) none
      | (name, _ :: value) => r.long (String.ofList name) (some (String.ofList value))
    | '-' :: letter :: rest => r.short letter rest
    | _ =>
      match r.pending with
      | some (slot, none) => .ok { r with pending := some (slot, some argument) }
      | _ => r.positional argument

end Reading

def parse (arguments : List String) : Except Stop Options := do
  let r ← arguments.foldlM Reading.argument {}
  .ok (← r.settle).options

end Options
end Vellum

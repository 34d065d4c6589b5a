import Moire.Number.Text

/-!
# Command-line arguments

Options with a value are written `--name value`, `--name=value`, `-n value`, `-nvalue` or
`-n=value`; switches stand alone. The value of an option is looked at when the next option begins
or when the arguments end, so that of two mistakes the one that is met first is reported.
`Options.parse` reads all arguments.
-/

namespace Moire

/-- An option with a value. -/
inductive Setting where
  | configFile
  | output
  | workers
  | kpNum
  | twistAngle
  | cacheDir
  | exportPath
  deriving DecidableEq, Repr, Inhabited

/-- An option without a value. -/
inductive Switch where
  | noCache
  | refresh
  | help
  | version
  deriving DecidableEq, Repr, Inhabited

/-- Why a run ends at its arguments. -/
inductive ArgumentError where
  | unknownArgument
  /-- An option stands without its value. -/
  | missingValue
  /-- A value is not of the kind that its option needs. -/
  | badValue
  /-- An option is given twice. -/
  | conflict
  /-- A switch is given a value. -/
  | tooManyValues
  | helpRequested
  | versionRequested
  deriving DecidableEq, Repr, Inhabited

/-- Asking for help or for the version is no mistake. -/
def ArgumentError.isMistake : ArgumentError → Bool
  | .helpRequested | .versionRequested => false
  | _ => true

/-- The options of a run. -/
structure Options where
  configFile : String := "config.yaml"
  output : Option String := none
  workers : Option Nat := none
  kpNum : Option Nat := none
  /-- In degrees. -/
  twistAngle : Option Float := none
  cacheDir : Option String := none
  noCache : Bool := false
  refresh : Bool := false
  exportPath : Option String := none
  deriving Repr, Inhabited

/-- The setting of a long name. -/
def Setting.ofName? : String → Option Setting
  | "config-file" => some .configFile
  | "output" => some .output
  | "workers" => some .workers
  | "kp-num" => some .kpNum
  | "twist-angle" => some .twistAngle
  | "cache-dir" => some .cacheDir
  | "export" => some .exportPath
  | _ => none

/-- The setting of a letter. -/
def Setting.ofLetter? : Char → Option Setting
  | 'c' => some .configFile
  | 'o' => some .output
  | 'w' => some .workers
  | 'e' => some .exportPath
  | _ => none

/-- The switch of a long name. -/
def Switch.ofName? : String → Option Switch
  | "no-cache" => some .noCache
  | "refresh" => some .refresh
  | "help" => some .help
  | "version" => some .version
  | _ => none

/-- The switch of a letter. -/
def Switch.ofLetter? : Char → Option Switch
  | 'h' => some .help
  | 'V' => some .version
  | _ => none

/-- What an argument is by itself. -/
inductive ArgumentWord where
  /-- An option, with the value that is attached to it. -/
  | setting (option : Setting) (attached : Option String)
  | switch (option : Switch)
  /-- A switch with a value attached to it. -/
  | loadedSwitch
  | value (text : String)
  /-- Two dashes, after which there are no options. -/
  | separator
  | unknown
  deriving DecidableEq, Repr, Inhabited

namespace ArgumentWord

/-- The word of an argument that begins with two dashes. -/
def ofLong (body : List Char) : ArgumentWord :=
  let name := String.ofList (body.takeWhile (· ≠ '='))
  let attached := match body.dropWhile (· ≠ '=') with
    | [] => none
    | _ :: tail => some (String.ofList tail)
  match Setting.ofName? name, Switch.ofName? name, attached with
  | some option, _, _ => .setting option attached
  | none, some option, none => .switch option
  | none, some _, some _ => .loadedSwitch
  | none, none, _ => .unknown

/-- The word of an argument that begins with one dash and a letter. -/
def ofShort (letter : Char) (rest : List Char) : ArgumentWord :=
  let attached := match rest with
    | [] => none
    | '=' :: tail => some (String.ofList tail)
    | tail => some (String.ofList tail)
  match Setting.ofLetter? letter, Switch.ofLetter? letter with
  | some option, _ => .setting option attached
  | none, some option => .switch option
  | none, none => .unknown

/-- The word of an argument. A single dash is a value. -/
def ofText (text : String) : ArgumentWord :=
  match text.toList with
  | ['-', '-'] => .separator
  | '-' :: '-' :: body => ofLong body
  | '-' :: letter :: rest => ofShort letter rest
  | _ => .value text

end ArgumentWord

namespace Options

/-- Give an option its value, if the value is of the right kind. -/
def set (options : Options) (option : Setting) (text : String) : Option Options :=
  match option with
  | .configFile => some { options with configFile := text }
  | .output => some { options with output := some text }
  | .workers => (readCount? text).map fun n ↦ { options with workers := some n }
  | .kpNum => (readCount? text).map fun n ↦ { options with kpNum := some n }
  | .twistAngle => (readFloat? text).map fun x ↦ { options with twistAngle := some x }
  | .cacheDir => some { options with cacheDir := some text }
  | .exportPath => some { options with exportPath := some text }

/-- Turn a switch on. A switch that is on already is given twice. -/
def turnOn (options : Options) : Switch → Except ArgumentError Options
  | .noCache => if options.noCache then .error .conflict else .ok { options with noCache := true }
  | .refresh => if options.refresh then .error .conflict else .ok { options with refresh := true }
  | .help => .error .helpRequested
  | .version => .error .versionRequested

end Options

/-- The options read so far. -/
structure ArgumentState where
  options : Options := {}
  given : List Setting := []
  /-- The last option, whose value has not been looked at, or has not even been met. -/
  pending : Option (Setting × Option String) := none
  deriving Repr, Inhabited

namespace ArgumentState

/-- Look at the value of an option. -/
def assign (state : ArgumentState) (option : Setting) (value : Option String) :
    Except ArgumentError ArgumentState :=
  match value with
  | none => .error .missingValue
  | some text =>
      if option ∈ state.given then .error .conflict
      else
        match state.options.set option text with
        | some options => .ok { options, given := option :: state.given, pending := none }
        | none => .error .badValue

/-- Look at the value of the last option. -/
def settle (state : ArgumentState) : Except ArgumentError ArgumentState :=
  match state.pending with
  | none => .ok state
  | some (option, value) => state.assign option value

/-- Read a word that is not the separator. -/
def step (state : ArgumentState) : ArgumentWord → Except ArgumentError ArgumentState
  | .setting option none => do
      let state ← state.settle
      return { state with pending := some (option, none) }
  | .setting option (some text) => do
      let state ← state.settle
      state.assign option (some text)
  | .switch option => do
      let state ← state.settle
      let options ← state.options.turnOn option
      return { state with options }
  | .loadedSwitch => .error .tooManyValues
  | .value text =>
      match state.pending with
      | some (option, none) => .ok { state with pending := some (option, some text) }
      | _ => .error .unknownArgument
  | .separator | .unknown => .error .unknownArgument

/-- Read all words. Nothing may follow the separator. -/
def feed (state : ArgumentState) : List ArgumentWord → Except ArgumentError ArgumentState
  | [] => state.settle
  | [.separator] => state.settle
  | word :: rest => do
      let next ← state.step word
      next.feed rest

end ArgumentState

/-- Read the arguments of a run, without the name of the program. -/
def Options.parse (arguments : List String) : Except ArgumentError Options := do
  let state ← ArgumentState.feed {} (arguments.map ArgumentWord.ofText)
  return state.options

end Moire

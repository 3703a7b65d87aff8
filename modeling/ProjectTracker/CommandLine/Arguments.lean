/-!
The arguments of the command line. Options stand before or after the command, each at most once in either
place, and what stands after it counts. Arguments are read from the left, and the first one that asks for
help or cannot stand where it does decides.
-/

namespace ProjectTracker.CommandLine

/-- The options that take a value. -/
inductive OptionName where
  | config
  | baseDir
  deriving DecidableEq, Repr

namespace OptionName

def render : OptionName → String
  | config => "--config <CONFIG>"
  | baseDir => "--base-dir <BASE_DIR>"

def ofString? : String → Option OptionName
  | "config" => some config
  | "base-dir" => some baseDir
  | _ => none

end OptionName

/-- What is wrong with the arguments. -/
inductive UsageError where
  | missingCommand
  | unknownCommand (text : String)
  | unexpectedArgument (text : String)
  | unexpectedValue (option : String)
  | missingValue (option : OptionName)
  | emptyValue (option : OptionName)
  | repeatedOption (option : OptionName)
  | missingFiles
  | emptyFile
  deriving DecidableEq, Repr

def UsageError.message : UsageError → String
  | missingCommand => "no command given"
  | unknownCommand text => s!"unrecognized command: {text}"
  | unexpectedArgument text => s!"unexpected argument: {text}"
  | unexpectedValue option => s!"a value was given that is not expected: {option}"
  | missingValue option => s!"a value is required for {option.render}"
  | emptyValue option => s!"the value of {option.render} is empty"
  | repeatedOption option => s!"{option.render} is given more than once"
  | missingFiles => "no files given"
  | emptyFile => "the name of a file is empty"

/-- The values of the options. -/
structure Options where
  config? : Option String := none
  baseDir? : Option String := none
  deriving DecidableEq, Repr

namespace Options

def get? (o : Options) : OptionName → Option String
  | .config => o.config?
  | .baseDir => o.baseDir?

/-- Gives an option that has none yet a value. -/
def set (o : Options) (option : OptionName) (value : String) : Except UsageError Options :=
  if (o.get? option).isSome then .error (.repeatedOption option)
  else if value = "" then .error (.emptyValue option)
  else
    match option with
    | .config => .ok { o with config? := some value }
    | .baseDir => .ok { o with baseDir? := some value }

/-- Gives an option the value that stands after it, if there is one to be given. -/
def settle (o : Options) : Option (OptionName × String) → Except UsageError Options
  | none => .ok o
  | some (option, value) => o.set option value

/-- The values of `o`, and those of `earlier` where `o` has none. -/
def orElse (o earlier : Options) : Options :=
  { config? := o.config?.or earlier.config?, baseDir? := o.baseDir?.or earlier.baseDir? }

end Options

/-- What help is asked about. -/
inductive HelpTopic where
  | program
  | inspect
  | help
  deriving DecidableEq, Repr

/-- What the arguments ask for. -/
inductive Request where
  | version
  | help (topic : HelpTopic)
  | inspect (options : Options) (files : List String)
  deriving DecidableEq, Repr

/-- The forms of an argument. -/
inductive Word where
  /-- `--`, after which options are none -/
  | escape
  /-- `--name` or `--name=value` -/
  | long (name : String) (value? : Option String)
  /-- `-x`, with anything after it -/
  | short (letter : Char)
  | plain
  deriving DecidableEq, Repr

namespace Word

/-- The value behind the first `=` of a long option. -/
def valueOf? (text : List Char) : Option String :=
  match text.dropWhile (· ≠ '=') with
  | [] => none
  | _ :: value => some (String.ofList value)

def ofChars : List Char → Word
  | ['-', '-'] => .escape
  | '-' :: '-' :: text => .long (String.ofList (text.takeWhile (· ≠ '='))) (valueOf? text)
  | '-' :: letter :: _ => .short letter
  | _ => .plain

def ofString (s : String) : Word :=
  ofChars s.toList

end Word

/-- What an option among the arguments does: it takes a value that stands with it, it waits for one, or it
is a flag. -/
inductive Effect where
  | value (options : Options)
  | wait (option : OptionName)
  | flag (name : String)

/-- The effect of a long option. -/
def longEffect (o : Options) (name : String) (value? : Option String) : Except UsageError Effect :=
  match OptionName.ofString? name, value? with
  | some option, some value => (o.set option value).map .value
  | some option, none => .ok (.wait option)
  | none, none => .ok (.flag name)
  | none, some _ => .error (.unexpectedValue name)

/-- The request to inspect the given files. -/
def inspectRequest (o : Options) (files : List String) : Except UsageError Request :=
  if files = [] then .error .missingFiles
  else if "" ∈ files then .error .emptyFile
  else .ok (.inspect o files)

/-- Reads what follows the command `inspect`. An option may wait for its value. -/
def readInspect :
    Options → Option OptionName → List String → List String → Except UsageError Request
  | _, some option, _, [] => .error (.missingValue option)
  | o, none, files, [] => inspectRequest o files
  | o, some option, files, arg :: rest =>
    match Word.ofString arg with
    | .plain => do readInspect (← o.set option arg) none files rest
    | _ => .error (.missingValue option)
  | o, none, files, arg :: rest =>
    match Word.ofString arg with
    | .escape => inspectRequest o (files ++ rest)
    | .plain =>
      if arg = "" then .error .emptyFile else readInspect o none (files ++ [arg]) rest
    | .short 'h' => .ok (.help .inspect)
    | .short _ => .error (.unexpectedArgument arg)
    | .long name value? => do
      match ← longEffect o name value? with
      | .value o => readInspect o none files rest
      | .wait option => readInspect o (some option) files rest
      | .flag "help" => .ok (.help .inspect)
      | .flag _ => .error (.unexpectedArgument arg)

/-- What the command `help` is asked about. -/
def readHelp : List String → Except UsageError Request
  | [] => .ok (.help .program)
  | ["inspect"] => .ok (.help .inspect)
  | ["help"] => .ok (.help .help)
  | "inspect" :: other :: _ => .error (.unknownCommand other)
  | "help" :: other :: _ => .error (.unknownCommand other)
  | other :: _ => .error (.unknownCommand other)

/-- Adds the options before the command to a request. Their last value counts only for files to inspect. -/
def withEarlier (o : Options) (late : Option (OptionName × String)) :
    Request → Except UsageError Request
  | .inspect own files => do pure (.inspect (own.orElse (← o.settle late)) files)
  | request => .ok request

/-- Reads all arguments, given the options that stand before the rest. An option may wait for its value, and
one that stands apart from its option is looked at only after the next argument: if that is a command, after
all that belongs to the command. -/
def readCommand :
    Options → Option (OptionName × String) → Option OptionName → List String → Except UsageError Request
  | _, _, some option, [] => .error (.missingValue option)
  | _, _, none, [] => .error .missingCommand
  | o, _, some option, arg :: rest =>
    match Word.ofString arg with
    | .plain => readCommand o (some (option, arg)) none rest
    | _ => .error (.missingValue option)
  | o, late, none, arg :: rest =>
    match Word.ofString arg with
    | .escape => .error (.unexpectedArgument arg)
    | .plain =>
      if arg = "inspect" then do withEarlier o late (← readInspect {} none [] rest)
      else if arg = "help" then readHelp rest
      else .error (.unknownCommand arg)
    | .short letter => do
      discard (o.settle late)
      match letter with
      | 'h' => .ok (.help .program)
      | 'V' => .ok .version
      | _ => .error (.unexpectedArgument arg)
    | .long name value? => do
      let o ← o.settle late
      match ← longEffect o name value? with
      | .value o => readCommand o none none rest
      | .wait option => readCommand o none (some option) rest
      | .flag "help" => .ok (.help .program)
      | .flag "version" => .ok .version
      | .flag _ => .error (.unexpectedArgument arg)

def readArguments (args : List String) : Except UsageError Request :=
  readCommand {} none none args

end ProjectTracker.CommandLine

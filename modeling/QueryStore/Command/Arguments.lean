import QueryStore.Text.Words

/-! What a command is told. The setting of the log level names a level. On the command line stand
`check` or `print` with their options. Arguments are read from the left, and the first fault
decides, save that a missing or empty value counts only from the point where the next option, or
the end, shows that nothing more belongs to it. -/
namespace QueryStore

/-- How much is logged, from everything to what concerns the user. -/
inductive LogLevel
  | trace
  | debug
  | info
deriving DecidableEq, Repr

/-- The name of a level. -/
def LogLevel.label : LogLevel → String
  | trace => "TRACE"
  | debug => "DEBUG"
  | info => "INFO"

/-- A setting that names no level, without the blanks around it. -/
structure LogLevelError where
  setting : String
deriving DecidableEq, Repr

/-- What is said about a setting that names no level. -/
def LogLevelError.message (error : LogLevelError) : String :=
  "Invalid `LOG_LEVEL` environment variable value: `" ++ error.setting ++ "`"

/-- Levels are named in upper or in lower case, blanks around the name aside; to be verbose
is to debug, and without a setting the level is that of information. -/
def LogLevel.ofSetting : Option String → Except LogLevelError LogLevel
  | none => .ok .info
  | some setting =>
    let name := String.ofList (Text.trim setting.toList)
    if name = "TRACE" || name = "trace" then .ok .trace
    else if name = "DEBUG" || name = "debug" then .ok .debug
    else if name = "VERBOSE" || name = "verbose" then .ok .debug
    else if name = "INFO" || name = "info" then .ok .info
    else .error ⟨name⟩

end QueryStore

namespace QueryStore.Command

/-- Why the arguments name nothing to run; asking for help or for the version is one of the
reasons. -/
inductive UsageError
  | displayHelp
  | displayVersion
  | invalidSubcommand
  | unknownArgument
  | missingRequiredArgument
  | invalidValue
  | argumentConflict
  | tooManyValues
deriving DecidableEq, Repr

/-- The name of a reason. -/
def UsageError.label : UsageError → String
  | displayHelp => "DisplayHelp"
  | displayVersion => "DisplayVersion"
  | invalidSubcommand => "InvalidSubcommand"
  | unknownArgument => "UnknownArgument"
  | missingRequiredArgument => "MissingRequiredArgument"
  | invalidValue => "InvalidValue"
  | argumentConflict => "ArgumentConflict"
  | tooManyValues => "TooManyValues"

/-- What to check and how: whether conflicts fail the check, whether fragments may have
variables, which extensions are looked for, and whether each conflict is reported when it is
found. -/
structure CheckOptions where
  denyConflicts : Bool
  fragmentVariables : Bool
  extensions : List String
  warnings : Bool
  paths : List String
deriving DecidableEq, Repr

/-- Which file to print, and whether its fragments may have variables. -/
structure PrintOptions where
  fragmentVariables : Bool
  path : String
deriving DecidableEq, Repr

/-- A subcommand with its options. -/
inductive Task
  | check (options : CheckOptions)
  | print (options : PrintOptions)
deriving DecidableEq, Repr

/-- The paths that a task is about. -/
def Task.paths : Task → List String
  | check options => options.paths
  | print options => [options.path]

/-- What the arguments ask for. -/
inductive Invocation
  | nothing (verbose : Bool)
  | task (task : Task)
deriving DecidableEq, Repr

/-- The form of an argument: the mark after which no options come, a long option with or
without a value attached, short options in a row, or a plain argument. -/
inductive Form
  | mark
  | long (name : String) (value : Option String)
  | short (letters : List Char)
  | plain
deriving DecidableEq, Repr

/-- The form of an argument by its beginning; a single hyphen is a plain argument. -/
def formOf (argument : String) : Form :=
  match argument.toList with
  | ['-', '-'] => .mark
  | '-' :: '-' :: text =>
    let value := match text.dropWhile (· ≠ '=') with
      | [] => none
      | _ :: value => some (String.ofList value)
    .long (String.ofList (text.takeWhile (· ≠ '='))) value
  | '-' :: first :: letters => .short (first :: letters)
  | _ => .plain

/-- The options that a subcommand takes: flags, at most one option with a list of values,
and one path or many. -/
structure Shape where
  flags : List String
  listOption : Option String
  manyPaths : Bool

/-- What was given to a subcommand so far. `waiting` says that the list option came last and
has no value yet, `ended` that no more options come. -/
structure Given where
  flags : List String
  values : Option (List String)
  paths : List String
  waiting : Bool
  ended : Bool
deriving DecidableEq, Repr

/-- The state before the first argument. -/
def Given.nothing : Given := ⟨[], none, [], false, false⟩

/-- Nothing more belongs to what was given: a list option needs its value, and no path is
empty. -/
def Given.settle (given : Given) : Except UsageError Given :=
  if given.waiting || given.paths.contains "" then .error .invalidValue else .ok given

/-- Adds a value of the list option, which commas divide. -/
def Given.addValue (given : Given) (value : String) : Given :=
  { given with values := some (given.values.getD [] ++ Text.split ',' value), waiting := false }

/-- Takes an argument that is no option. -/
def Given.takePath (shape : Shape) (given : Given) (path : String) : Except UsageError Given :=
  if !shape.manyPaths && !given.paths.isEmpty then .error .unknownArgument
  else if given.waiting then .error .invalidValue
  else .ok { given with paths := given.paths ++ [path] }

/-- Takes a long option. -/
def Given.takeLong (shape : Shape) (given : Given) (name : String) (value : Option String) :
    Except UsageError Given :=
  if shape.listOption = some name then do
    let given ← given.settle
    match value with
    | some value => return given.addValue value
    | none => return { given with waiting := true }
  else if shape.flags.contains name || name = "help" then
    if value.isSome then .error .tooManyValues
    else do
      let given ← given.settle
      if name = "help" then .error .displayHelp
      else if given.flags.contains name then .error .argumentConflict
      else return { given with flags := name :: given.flags }
  else .error .unknownArgument

/-- Takes the next argument of a subcommand. -/
def Given.take (shape : Shape) (given : Given) (argument : String) : Except UsageError Given :=
  if given.ended then given.takePath shape argument
  else match formOf argument with
    | .mark => .ok { given with ended := true }
    | .long name value => given.takeLong shape name value
    | .short ('h' :: _) => do
      let _ ← given.settle
      .error .displayHelp
    | .short _ => .error .unknownArgument
    | .plain =>
      if given.waiting then .ok (given.addValue argument) else given.takePath shape argument

/-- All that is given to a subcommand; there has to be a path. -/
def Given.ofArguments (shape : Shape) (arguments : List String) : Except UsageError Given := do
  let given ← arguments.foldlM (Given.take shape) .nothing
  let given ← given.settle
  if given.paths.isEmpty then .error .missingRequiredArgument else return given

/-- Conflicts fail the check. -/
def denyFlag : String := "deny-fragment-conflicts"

/-- Fragments may have variables. -/
def variablesFlag : String := "experimental-fragment-variables"

/-- Conflicts are not reported as they are found. -/
def quietFlag : String := "no-fragment-warnings"

/-- The extensions to look for. -/
def extensionsOption : String := "graphql-file-exts"

/-- The extensions that are looked for if none are given. -/
def defaultExtensions : List String := ["graphql", "gql"]

/-- The options of a check from its arguments. -/
def checkOptions (arguments : List String) : Except UsageError CheckOptions := do
  let given ← Given.ofArguments
    ⟨[denyFlag, variablesFlag, quietFlag], some extensionsOption, true⟩ arguments
  return {
    denyConflicts := given.flags.contains denyFlag
    fragmentVariables := given.flags.contains variablesFlag
    extensions := given.values.getD defaultExtensions
    warnings := !given.flags.contains quietFlag
    paths := given.paths }

/-- The options of printing from its arguments. -/
def printOptions (arguments : List String) : Except UsageError PrintOptions := do
  let given ← Given.ofArguments ⟨[variablesFlag], none, false⟩ arguments
  return {
    fragmentVariables := given.flags.contains variablesFlag
    path := given.paths.head?.getD "" }

/-- The names of the subcommands. -/
def subcommands : List String := ["check", "print", "help"]

/-- Help may be asked for in general, or about one subcommand. -/
def help (arguments : List String) : UsageError :=
  match arguments with
  | [] => .displayHelp
  | [subcommand] => if subcommands.contains subcommand then .displayHelp else .invalidSubcommand
  | _ => .invalidSubcommand

/-- Takes letters that stand for options of the program itself; the result says whether its
output is to be verbose. -/
def takeLetters (verbose : Bool) : List Char → Except UsageError Bool
  | [] => .ok verbose
  | 'h' :: _ => .error .displayHelp
  | 'V' :: _ => .error .displayVersion
  | 'v' :: rest => if verbose then .error .argumentConflict else takeLetters true rest
  | _ => .error .unknownArgument

/-- Takes a long option of the program itself. -/
def takeProgramOption (verbose : Bool) (name : String) (value : Option String) :
    Except UsageError Bool :=
  if name ≠ "help" && name ≠ "version" && name ≠ "verbose" then .error .unknownArgument
  else if value.isSome then .error .tooManyValues
  else if name = "help" then .error .displayHelp
  else if name = "version" then .error .displayVersion
  else if verbose then .error .argumentConflict
  else .ok true

/-- Reads the arguments from the first that is not an option of the program itself on;
`ended` says that no more options come. -/
def invocationFrom (verbose ended : Bool) : List String → Except UsageError Invocation
  | [] => .ok (.nothing verbose)
  | argument :: rest =>
    if ended then
      .error (if subcommands.contains argument then .unknownArgument else .invalidSubcommand)
    else if argument = "check" then
      (checkOptions rest).map fun options => .task (.check options)
    else if argument = "print" then
      (printOptions rest).map fun options => .task (.print options)
    else if argument = "help" then .error (help rest)
    else match formOf argument with
      | .mark => invocationFrom verbose true rest
      | .long name value => do invocationFrom (← takeProgramOption verbose name value) false rest
      | .short letters => do invocationFrom (← takeLetters verbose letters) false rest
      | .plain => .error .invalidSubcommand

/-- What all arguments ask for. -/
def Invocation.ofArguments (arguments : List String) : Except UsageError Invocation :=
  invocationFrom false false arguments

end QueryStore.Command

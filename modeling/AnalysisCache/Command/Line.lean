/-!
# Command lines

A command line names a command, before and after which options may stand. An option has a long name,
and perhaps one of a single letter. Some take a value, in the same word or in the next one.

Most options can stand on either side of the command, where the one after it counts. On one side, an
option can be given only once. What follows `--` is no option, and no command takes anything else.

* `Invocation.ofWords`: reads a command line, or says what is wrong with it.
-/

namespace AnalysisCache

inductive ReportFormat where
  | text
  | json
deriving DecidableEq

namespace ReportFormat

def ofText? (s : String) : Option ReportFormat :=
  if s = "text" then some .text else if s = "json" then some .json else none

end ReportFormat

inductive Command where
  /-- Removes the cache. -/
  | clear
  /-- Says what the next run would analyse. -/
  | status (debug : Bool) (format : ReportFormat)
  /-- Says what the cache holds. -/
  | dump (format : ReportFormat)
deriving DecidableEq

structure Invocation where
  quiet : Bool
  verbose : Bool
  /-- The configuration that is asked for. -/
  config : Option String
  command : Command
deriving DecidableEq

/-- Why a command line is not run. -/
inductive UsageError where
  | help
  | version
  /-- There is nothing in the command line. -/
  | nothingGiven
  | noCommand
  | unknownCommand
  | unknownArgument
  | badValue
  | givenTwice
  | valueNotTaken
deriving DecidableEq

namespace UsageError

/-- Asking for help or for the version is no failure. -/
def exitCode : UsageError → Nat
  | .help | .version => 0
  | _ => 2

end UsageError

/-- An option. -/
inductive Switch where
  | quiet
  | verbose
  | config
  | debug
  | format
  | help
  | version
deriving DecidableEq

/-- The part of a command line that an option stands in: before the command, or after it. -/
inductive Section where
  | front
  | clear
  | status
  | dump
deriving DecidableEq

/-- A word that can stand for a command. -/
inductive CommandWord where
  | help
  | command (s : Section)
deriving DecidableEq

namespace CommandWord

def ofText? (s : String) : Option CommandWord :=
  if s = "clear-result-cache" then some (.command .clear)
  else if s = "cache-status" then some (.command .status)
  else if s = "cache-dump" then some (.command .dump)
  else if s = "help" then some .help
  else none

end CommandWord

namespace Switch

def takesValue : Switch → Bool
  | .config | .format => true
  | _ => false

/-- Where an option can stand. -/
def isAllowed : Switch → Section → Bool
  | .version, s => s = .front
  | .debug, s => s = .status
  | .format, s => s = .status || s = .dump
  | _, _ => true

def named? (name : String) : Option Switch :=
  if name = "quiet" then some .quiet
  else if name = "verbose" then some .verbose
  else if name = "config" then some .config
  else if name = "debug" then some .debug
  else if name = "format" then some .format
  else if name = "help" then some .help
  else if name = "version" then some .version
  else none

def lettered? (c : Char) : Option Switch :=
  if c = 'q' then some .quiet
  else if c = 'v' then some .verbose
  else if c = 'f' then some .format
  else if c = 'h' then some .help
  else if c = 'V' then some .version
  else none

/-- Whether a value can be given to an option. -/
def accepts : Switch → String → Bool
  | .format, v => (ReportFormat.ofText? v).isSome
  | _, _ => true

end Switch

/-- The options of a section. The last one that takes a value is checked when the next one comes, so
that until then a word can be its value. -/
structure Options where
  given : List (Switch × String)
  pending : Option (Switch × Option String)

namespace Options

def none : Options := ⟨[], .none⟩

def has (o : Options) (s : Switch) : Bool := o.given.any fun g => g.1 = s

def value? (o : Options) (s : Switch) : Option String :=
  (o.given.find? fun g => g.1 = s).map (·.2)

/-- Whether the next word is a value unless it looks like an option. -/
def awaitsValue (o : Options) : Bool :=
  match o.pending with
  | some (_, .none) => true
  | _ => false

def add (o : Options) (s : Switch) (v : String) : Except UsageError Options :=
  if o.has s then .error .givenTwice
  else if s.accepts v then .ok { o with given := o.given ++ [(s, v)] }
  else .error .badValue

/-- Checks the last option that takes a value. -/
def settle (o : Options) : Except UsageError Options :=
  match o.pending with
  | .none => .ok o
  | some (_, .none) => .error .badValue
  | some (s, some v) => { o with pending := .none }.add s v

/-- An option without a value. -/
def flag (o : Options) (s : Switch) : Except UsageError Options := do
  let o ← o.settle
  match s with
  | .help => .error .help
  | .version => .error .version
  | s => o.add s ""

/-- An option with its value. -/
def assign (o : Options) (s : Switch) (v : String) : Except UsageError Options := do
  (← o.settle).add s v

/-- An option of which the value is yet to come. -/
def await (o : Options) (s : Switch) : Except UsageError Options := do
  return { ← o.settle with pending := some (s, .none) }

/-- A word that begins with two hyphens, without them: a name, and perhaps a value after `=`. -/
def long (w : Section) (o : Options) (word : List Char) : Except UsageError Options :=
  let name := String.ofList (word.takeWhile (· ≠ '='))
  match (Switch.named? name).filter fun s => s.isAllowed w, word.dropWhile (· ≠ '=') with
  | .none, _ => .error .unknownArgument
  | some s, [] => if s.takesValue then o.await s else o.flag s
  | some s, _ :: v => if s.takesValue then o.assign s (String.ofList v) else .error .valueNotTaken

/-- A word that begins with one hyphen, without it: letters of options, of which the last may have a
value in the rest of the word. -/
def letters (w : Section) : Options → List Char → Except UsageError Options
  | o, [] => .ok o
  | o, c :: rest =>
    match (Switch.lettered? c).filter fun s => s.isAllowed w with
    | .none => .error .unknownArgument
    | some s =>
      if s.takesValue then
        match rest with
        | [] => o.await s
        | '=' :: v => o.assign s (String.ofList v)
        | v => o.assign s (String.ofList v)
      else
        match o.flag s with
        | .error e => .error e
        | .ok o => letters w o rest

/-- Why a word that is no option cannot stand in a section. -/
def surplus (w : Section) (isLiteral : Bool) (word : String) : UsageError :=
  if w ≠ .front then .unknownArgument
  else if isLiteral && (CommandWord.ofText? word).isSome then .unknownArgument
  else .unknownCommand

/-- Reads the options of a section. The first section ends with a command, which is returned with
the words after it. -/
def ofWords (w : Section) :
    Options → List String → Except UsageError (Options × Option (CommandWord × List String))
  | o, [] => .ok (o, .none)
  | o, word :: rest =>
    let command? :=
      if w = .front && !o.awaitsValue then CommandWord.ofText? word else .none
    match command? with
    | some c => .ok (o, some (c, rest))
    | .none =>
      match word.toList with
      | ['-', '-'] =>
        match rest with
        | [] => .ok (o, .none)
        | next :: _ => .error (surplus w true next)
      | '-' :: '-' :: name =>
        match o.long w name with
        | .error e => .error e
        | .ok o => ofWords w o rest
      | '-' :: c :: more =>
        match o.letters w (c :: more) with
        | .error e => .error e
        | .ok o => ofWords w o rest
      | _ =>
        match o.pending with
        | some (s, .none) => ofWords w { o with pending := some (s, some word) } rest
        | _ => .error (surplus w false word)

end Options

namespace Invocation

/-- Whether help can be had on what the words name: one command, or the whole. -/
def isTopic (words : List String) : Bool :=
  words.length ≤ 1 && words.all fun w => (CommandWord.ofText? w).isSome

def formatOf (o : Options) : ReportFormat :=
  ((o.value? .format).bind ReportFormat.ofText?).getD .text

def commandOf (w : Section) (o : Options) : Command :=
  match w with
  | .status => .status (o.has .debug) (formatOf o)
  | .dump => .dump (formatOf o)
  | _ => .clear

/-- Reads a command line, without the name of the program. The options after the command are checked
before the last one of those that precede it. -/
def ofWords (words : List String) : Except UsageError Invocation := do
  let (front, command) ← Options.ofWords .front .none words
  match command with
  | none =>
    let front ← front.settle
    .error (if front.given.isEmpty then .nothingGiven else .noCommand)
  | some (.help, topic) => .error (if isTopic topic then .help else .unknownCommand)
  | some (.command w, rest) =>
    let (own, _) ← Options.ofWords w .none rest
    let own ← own.settle
    let front ← front.settle
    return {
      quiet := own.has .quiet || front.has .quiet
      verbose := own.has .verbose || front.has .verbose
      config := (own.value? .config).orElse fun _ => front.value? .config
      command := commandOf w own }

end Invocation

end AnalysisCache

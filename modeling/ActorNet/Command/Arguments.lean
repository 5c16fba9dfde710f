import ActorNet.Pipeline

/-!
# Command lines

A command asks for a view of a network, for a view of an actor after the passes, for the version or
for help.

The arguments of the program are taken from left to right, and the first one that decides ends the
reading: an argument that is not allowed where it stands, a value that is refused, or an option that
asks for the version or for help. So help that is asked for after a mistake is not given, and a
mistake after it does no harm.

* `Command.ofArgs?`: the command that arguments give.
-/

namespace ActorNet

inductive NetworkView where
  | graph
  | dot
  | json
  | fingerprint
deriving DecidableEq, Repr

inductive ActorView where
  | ir
  | schedule
  | dot
  | json
deriving DecidableEq, Repr

def NetworkView.ofName? : String → Option NetworkView
  | "graph" => some graph
  | "dot" => some dot
  | "json" => some json
  | "fingerprint" => some fingerprint
  | _ => none

def ActorView.ofName? : String → Option ActorView
  | "ir" => some ir
  | "schedule" => some schedule
  | "dot" => some dot
  | "json" => some json
  | _ => none

inductive Command where
  /-- Build a network from a description, given files with the interfaces of classes. -/
  | network (file : String) (registry : List String) (view : NetworkView)
  | actor (file : String) (options : PipelineOptions) (view : ActorView)
  | version
  | help
deriving DecidableEq, Repr

def Command.files : Command → List String
  | network file registry _ => registry ++ [file]
  | actor file _ _ => [file]
  | version => []
  | help => []

namespace Command

/-! ## Options -/

/-- How reading ends early. -/
inductive Stop where
  | bad
  /-- Another command takes the place of the one that was being read. -/
  | instead (command : Command)
deriving DecidableEq, Repr

/-- What an option does to what has been read so far. Nothing comes out if the option or its value
is refused. -/
inductive Effect (σ : Type) where
  | replace (command : Command)
  | flag (set : σ → Option σ)
  | value (set : σ → String → Option σ)

/-- The options that are known at some place: by name, after two dashes, and by letter, after
one. -/
structure Options (σ : Type) where
  named : String → Option (Effect σ)
  lettered : Char → Option (Effect σ)

/-- What is left to do after an argument: nothing, or the next argument is the value of an
option. -/
inductive Progress (σ : Type) where
  | done (state : σ)
  | awaits (set : String → Option σ)

/-- Whether an argument is an option rather than a value: it starts with a dash and is not just
one. -/
def looksLikeOption (arg : String) : Bool :=
  match arg.toList with
  | '-' :: _ :: _ => true
  | _ => false

/-- What came out of an option, or the end of the reading. -/
def accept {α : Type} : Option α → Except Stop α
  | some a => .ok a
  | none => .error .bad

/-- The name of an option and the value joined to it by an equals sign. -/
def splitEquals (cs : List Char) : String × Option String :=
  match cs.dropWhile (· ≠ '=') with
  | [] => (String.ofList cs, none)
  | _ :: value => (String.ofList (cs.takeWhile (· ≠ '=')), some (String.ofList value))

namespace Options

variable {σ : Type}

/-- Read an option by its name, with the value joined to it. Only an option that takes a value may
have one. -/
def readNamed (options : Options σ) (state : σ) (name : String) (joined : Option String) :
    Except Stop (Progress σ) :=
  match options.named name, joined with
  | some (.replace command), none => .error (.instead command)
  | some (.flag set), none => .done <$> accept (set state)
  | some (.value set), none => .ok (.awaits (set state))
  | some (.value set), some value => .done <$> accept (set state value)
  | _, _ => .error .bad

/-- Read the letters of one argument. The first one that takes a value has the characters after it
as its value, less an equals sign in front. -/
def readLetters (options : Options σ) (state : σ) : List Char → Except Stop (Progress σ)
  | [] => .ok (.done state)
  | letter :: rest =>
    match options.lettered letter, rest with
    | none, _ => .error .bad
    | some (.replace command), _ => .error (.instead command)
    | some (.flag set), rest => do options.readLetters (← accept (set state)) rest
    | some (.value set), [] => .ok (.awaits (set state))
    | some (.value set), '=' :: value => .done <$> accept (set state (String.ofList value))
    | some (.value set), value => .done <$> accept (set state (String.ofList value))

/-- Read an argument that has to be an option; a dash alone is none. -/
def read (options : Options σ) (state : σ) (arg : String) : Except Stop (Progress σ) :=
  match arg.toList with
  | '-' :: '-' :: name =>
    let (name, joined) := splitEquals name
    options.readNamed state name joined
  | '-' :: letter :: letters => options.readLetters state (letter :: letters)
  | _ => .error .bad

/-- Read the arguments of a command. `operand` takes an argument that is no option. After two dashes
no argument is one, and an option is never the value of another. -/
def readAll (options : Options σ) (operand : σ → String → Option σ) (state : σ) : List String → Except Stop σ
  | [] => .ok state
  | "--" :: rest => accept (rest.foldlM operand state)
  | arg :: rest =>
    if looksLikeOption arg then
      match options.read state arg, rest with
      | .error stop, _ => .error stop
      | .ok (.done state), rest => options.readAll operand state rest
      | .ok (.awaits _), [] => .error .bad
      | .ok (.awaits set), value :: rest =>
        if looksLikeOption value then .error .bad
        else
          match set value with
          | some state => options.readAll operand state rest
          | none => .error .bad
    else
      match operand state arg with
      | some state => options.readAll operand state rest
      | none => .error .bad

end Options

/-! ## The arguments of the commands -/

def once : Bool → Option Bool
  | false => some true
  | true => none

def nonEmpty? (arg : String) : Option String :=
  if arg = "" then none else some arg

structure NetworkArgs where
  verbose : Bool := false
  file : Option String := none
  registry : List String := []
  view : Option NetworkView := none

namespace NetworkArgs

def operand (args : NetworkArgs) (arg : String) : Option NetworkArgs :=
  match args.file with
  | none => (nonEmpty? arg).map fun file => { args with file := some file }
  | some _ => none

def addRegistry (args : NetworkArgs) (arg : String) : Option NetworkArgs :=
  (nonEmpty? arg).map fun file => { args with registry := args.registry ++ [file] }

def setView (args : NetworkArgs) (name : String) : Option NetworkArgs :=
  match args.view with
  | none => (NetworkView.ofName? name).map fun view => { args with view := some view }
  | some _ => none

def options : Options NetworkArgs where
  named
    | "verbose" => some (.flag fun args => (once args.verbose).map fun b => { args with verbose := b })
    | "registry" => some (.value addRegistry)
    | "emit" => some (.value setView)
    | "help" => some (.replace .help)
    | _ => none
  lettered
    | 'r' => some (.value addRegistry)
    | 'h' => some (.replace .help)
    | _ => none

def command? (args : NetworkArgs) : Option Command :=
  args.file.map fun file => .network file args.registry (args.view.getD .graph)

end NetworkArgs

structure ActorArgs where
  verbose : Bool := false
  file : Option String := none
  ifConvert : Bool := false
  storeOnce : Bool := false
  noClassify : Bool := false
  view : Option ActorView := none

namespace ActorArgs

def operand (args : ActorArgs) (arg : String) : Option ActorArgs :=
  match args.file with
  | none => (nonEmpty? arg).map fun file => { args with file := some file }
  | some _ => none

def setView (args : ActorArgs) (name : String) : Option ActorArgs :=
  match args.view with
  | none => (ActorView.ofName? name).map fun view => { args with view := some view }
  | some _ => none

def options : Options ActorArgs where
  named
    | "verbose" => some (.flag fun args => (once args.verbose).map fun b => { args with verbose := b })
    | "if-convert" => some (.flag fun args => (once args.ifConvert).map fun b => { args with ifConvert := b })
    | "store-once" => some (.flag fun args => (once args.storeOnce).map fun b => { args with storeOnce := b })
    | "no-classify" => some (.flag fun args => (once args.noClassify).map fun b => { args with noClassify := b })
    | "emit" => some (.value setView)
    | "help" => some (.replace .help)
    | _ => none
  lettered
    | 'h' => some (.replace .help)
    | _ => none

def command? (args : ActorArgs) : Option Command :=
  let passes : PipelineOptions :=
    { ifConvert := args.ifConvert, storeOnce := args.storeOnce, classify := !args.noClassify }
  args.file.map fun file => .actor file passes (args.view.getD .ir)

end ActorArgs

/-! ## The command line -/

/-- The options in front of the command. What is read is whether there is to be a log. -/
def programOptions : Options Bool where
  named
    | "verbose" => some (.flag once)
    | "help" => some (.replace .help)
    | "version" => some (.replace .version)
    | _ => none
  lettered
    | 'h' => some (.replace .help)
    | 'V' => some (.replace .version)
    | _ => none

/-- There is help on the program, on each command, and on help itself. -/
def isHelpTopic : List String → Bool
  | [] => true
  | [topic] => topic = "network" || topic = "actor" || topic = "help"
  | _ => false

/-- Read a command line, given whether a log was asked for before. -/
def read (verbose : Bool) : List String → Except Stop Command
  | [] => .error .bad
  | "network" :: args => do accept (← NetworkArgs.options.readAll NetworkArgs.operand {} args).command?
  | "actor" :: args => do accept (← ActorArgs.options.readAll ActorArgs.operand {} args).command?
  | "help" :: topic => if isHelpTopic topic then .ok .help else .error .bad
  | "--" :: _ => .error .bad
  | arg :: rest =>
    match programOptions.read verbose arg with
    | .ok (.done verbose) => read verbose rest
    | .ok (.awaits _) => .error .bad
    | .error stop => .error stop

def ofArgs? (args : List String) : Option Command :=
  match read false args with
  | .ok command => some command
  | .error (.instead command) => some command
  | .error .bad => none

end Command

end ActorNet

import ActorNet.Actor.Document
import ActorNet.Command.Arguments
import ActorNet.Dot
import ActorNet.Network.Fingerprint
import ActorNet.Schedule

/-!
# Running commands

What a command prints for the contents of the files that it names, and what it says if it fails.
Reading files and printing are left to the caller.
-/

namespace ActorNet

/-! ## Errors -/

/-- Why a file could not be read as text. -/
inductive ReadFailure where
  | notFound
  | isDirectory
  /-- Something on the way to the file is no directory. -/
  | notDirectory
  | nameTooLong
  | notText
  | other (message : String)
deriving DecidableEq, Repr

def ReadFailure.message : ReadFailure → String
  | notFound => "No such file or directory (os error 2)"
  | isDirectory => "Is a directory (os error 21)"
  | notDirectory => "Not a directory (os error 20)"
  | nameTooLong => "File name too long (os error 36)"
  | notText => "stream did not contain valid UTF-8"
  | other message => message

abbrev Files := String → Except ReadFailure String

/-- Why a command fails. -/
inductive CommandError where
  | unreadable (file : String) (e : ReadFailure)
  | unreadableRegistry (file : String) (e : ReadFailure)
  | malformedRegistry (file : String)
  | duplicateClass (name : String)
  | malformedNetwork (file : String)
  /-- The source text is there for textual descriptions. -/
  | network (file : String) (source : Option String) (e : NetworkError)
  | malformedActor (file : String)
  | invalidActor (file : String) (e : ActorError)
  | pipeline (e : PipelineError)
  | guardFailed (actor : String) (e : Fault)

namespace CommandError

/-- What is said about a text that is no document of the expected form. -/
def malformedText : String := "not a valid document"

def render : CommandError → String
  | unreadable file e => ({ message := e.message } : Diagnostic).render file none
  | unreadableRegistry file e => ({ message := file ++ ": " ++ e.message } : Diagnostic).text
  | malformedRegistry file => ({ message := file ++ ": " ++ malformedText } : Diagnostic).text
  | duplicateClass name => ({ message := (RegistryError.duplicate name).message } : Diagnostic).text
  | malformedNetwork file => ({ message := malformedText } : Diagnostic).render file none
  | network file source e => e.diagnostic.render file source
  | malformedActor file =>
    ({ code := some .brokenStructure, message := "cannot parse actor document: " ++ malformedText } :
      Diagnostic).render file none
  | invalidActor file e =>
    ({ code := some .brokenStructure, message := e.message } : Diagnostic).render file none
  | pipeline e => e.diagnostic.text
  | guardFailed actor _ =>
    ({ code := some .guardFailed, message := "actor '" ++ actor ++ "': cannot evaluate guard" } : Diagnostic).text

/-- Whether the error is about a text that is no document of the expected form; `malformedText` ends
what is said. -/
def isMalformed : CommandError → Bool
  | malformedRegistry _ => true
  | malformedNetwork _ => true
  | malformedActor _ => true
  | _ => false

/-- The exit code: 2 if a file cannot be read, 1 if its contents are wrong. -/
def exitCode : CommandError → UInt32
  | unreadable _ _ => 2
  | unreadableRegistry _ _ => 2
  | _ => 1

end CommandError

/-! ## Running -/

namespace Command

/-- The last part of a path; none if it is the parent directory. -/
def fileName? (path : String) : Option (List Char) :=
  let parts := ((path.splitOn "/").map String.toList).filter fun part => part ≠ [] && part ≠ ['.']
  parts.getLast?.filter (· ≠ ['.', '.'])

/-- What follows the last dot of a file name, unless the name starts there. -/
def extension? (path : String) : Option String :=
  match fileName? path with
  | none => none
  | some name =>
    let backward := name.reverse
    match backward.dropWhile (· ≠ '.') with
    | _ :: _ :: _ => some (String.ofList (backward.takeWhile (· ≠ '.')).reverse)
    | _ => none

def loadRegistry (files : Files) (registry : Registry) : List String → Except CommandError Registry
  | [] => .ok registry
  | file :: rest =>
    match files file with
    | .error e => .error (.unreadableRegistry file e)
    | .ok text =>
      match registry.load text with
      | (.error .malformed, _) => .error (.malformedRegistry file)
      | (.error (.duplicate name), _) => .error (.duplicateClass name)
      | (.ok _, registry) => loadRegistry files registry rest

def loadNetwork (files : Files) (file : String) (registry : Registry) : Except CommandError Network :=
  match files file with
  | .error e => .error (.unreadable file e)
  | .ok text =>
    if extension? file = some "json" then
      match (Json.parse? text).bind NetworkDecl.ofJson? with
      | none => .error (.malformedNetwork file)
      | some decl => (Network.build decl registry).mapError (.network file none)
    else (Network.ofText text registry).mapError (.network file (some text))

def loadActor (files : Files) (file : String) : Except CommandError Actor :=
  match files file with
  | .error e => .error (.unreadable file e)
  | .ok text =>
    match Actor.load text with
    | .error .malformed => .error (.malformedActor file)
    | .error (.invalid e) => .error (.invalidActor file e)
    | .ok a => .ok a

def showNetwork (n : Network) (registry : Registry) : NetworkView → String
  | .graph => n.text
  | .dot => n.dot
  | .json => n.toDecl.toJson.pretty ++ "\n"
  | .fingerprint => (Fingerprint.compute n registry).document

def showActor (a : Actor) : ActorView → Except CommandError String
  | .ir => .ok ("\n".intercalate a.procTexts)
  | .schedule => (a.schedule.map Schedule.text).mapError (.guardFailed a.name)
  | .dot => .ok a.dot
  | .json => .ok (a.document ++ "\n")

def versionText : String :=
  "dacc " ++ compilerVersion ++ "\n"

def usageText : String :=
  "Usage: dacc [--verbose] network FILE [-r FILE]... [--emit graph|dot|json|fingerprint]\n"
    ++ "       dacc [--verbose] actor FILE [--if-convert] [--store-once] [--no-classify]\n"
    ++ "                        [--emit ir|schedule|dot|json]\n"

def run (files : Files) : Command → Except CommandError String
  | network file registry view => do
    let registry ← loadRegistry files {} registry
    let n ← loadNetwork files file registry
    return showNetwork n registry view
  | actor file options view => do
    let a ← loadActor files file
    let (_, a) ← (a.transform options).mapError .pipeline
    showActor a view
  | version => .ok versionText
  | help => .ok usageText

end Command

end ActorNet

import MetricCatalog.Inspection.Log
import MetricCatalog.Inspection.Settings
import MetricCatalog.Inspection.Directory
import MetricCatalog.Text.Quoted

/-!
# Running an inspection — settings, a file and what is printed

A run looks at the kind, then at the file, then at the payload, and the first of them that is not right
ends it. Only a run that ends well prints to the output. The report says how far it came.

The run asks for its file in any monad, so it is the same for a directory that is a value as for one on a
disk.
-/

namespace MetricCatalog

/-! ## 1. Records of a run -/

/-- A failure to read a file, as the cause given in a sentence. -/
def ReadFailure.message (f : ReadFailure) : String :=
  match f.code? with
  | some code => f.text ++ " (os error " ++ toString code ++ ")"
  | none => f.text

/-- A failure to read a file with all its parts. -/
def ReadFailure.detail (f : ReadFailure) : String :=
  match f.code? with
  | some code =>
    "Os \x7b code: " ++ toString code ++ ", kind: " ++ f.kind ++ ", message: " ++ Text.quoted f.text ++ " \x7d"
  | none => "Error \x7b kind: " ++ f.kind ++ ", message: " ++ Text.quoted f.text ++ " \x7d"

/-- The record of the settings. -/
def Settings.record (s : Settings) : LogRecord :=
  ⟨.debug, .settings, "InspectConfig loaded: payload_path=" ++ s.path ++ ", payload_kind=" ++ s.kind⟩

/-- The records of a text that is inspected: it is decoded, and then either refused or encoded again. -/
def inspectionRecords (log : Log) (kind : PayloadKind) (text : String) : List LogRecord :=
  [⟨.debug, .payload, "Inspecting " ++ Vocabulary.name kind ++ " payload"⟩,
    ⟨.debug, .codec, "Decoding " ++ log.typeName kind ++ " from " ++ toString text.utf8ByteSize ++ " bytes"⟩,
    match decode kind.Answer text with
    | .ok _ => ⟨.debug, .codec, "Encoding " ++ log.typeName kind ++ " (pretty)"⟩
    | .error e => ⟨.error, .codec, "Failed to decode " ++ log.typeName kind ++ ": " ++ e.cause⟩]

/-! ## 2. Runs -/

/-- What a run leaves behind. -/
structure Outcome where
  exitCode : UInt32
  output : String
  report : String

namespace Outcome

variable (log : Log) (settings : Settings)

/-- The run found a kind that it does not know. -/
def unknownKind (error : Error) : Outcome where
  exitCode := 1
  output := ""
  report :=
    log.report
      [settings.record, ⟨.error, .command, "Invalid " ++ Settings.kindVariable ++ ": " ++ error.message⟩] ++
    "Error: UnknownPayloadKind(" ++ Text.quoted settings.kind ++ ")\n"

/-- The run found a file that it cannot read. -/
def unreadable (cause : ReadFailure) : Outcome where
  exitCode := 1
  output := ""
  report :=
    log.report
      [settings.record, ⟨.error, .command, (Error.unreadable settings.path cause.message).message⟩] ++
    "Error: Io \x7b path: " ++ Text.quoted settings.path ++ ", source: " ++ cause.detail ++ " \x7d\n"

/-- The run read its file and inspected the text. -/
def inspected (kind : PayloadKind) (text : String) : Outcome :=
  let records := settings.record ::
    ⟨.info, .command, "Read " ++ toString text.utf8ByteSize ++ " bytes from " ++ settings.path⟩ ::
      inspectionRecords log kind text
  match inspect kind text with
  | .ok canonical => { exitCode := 0, output := canonical ++ "\n", report := log.report records }
  | .error e =>
    let refused : LogRecord :=
      ⟨.error, .command, "Payload does not match the " ++ Vocabulary.name kind ++ " model: " ++ e.message⟩
    { exitCode := 1, output := "", report := log.report (records ++ [refused]) }

end Outcome

/-- The text in a file's bytes. -/
def textOfFile (bytes : Bytes) : Except ReadFailure String :=
  match Utf8.decode? bytes with
  | some text => .ok text
  | none => .error .notUtf8

/-- Runs an inspection, asking `read` for the bytes of its file once the kind is known. -/
def run {m : Type → Type} [Monad m] (log : Log) (read : String → m (Except ReadFailure Bytes))
    (settings : Settings) : m Outcome :=
  match (Vocabulary.parse settings.kind : Except Error PayloadKind) with
  | .error e => return .unknownKind log settings e
  | .ok kind => do
    match (← read settings.path) >>= textOfFile with
    | .error cause => return .unreadable log settings cause
    | .ok text => return .inspected log settings kind text

/-- Runs an inspection in a directory. Unless told otherwise, its log shows what the command says. -/
def runIn (d : Directory) (given : List (String × String)) (log : Log := .command) : Outcome :=
  Id.run (run log (fun path => pure (d.read path)) (Settings.ofVariables given))

end MetricCatalog

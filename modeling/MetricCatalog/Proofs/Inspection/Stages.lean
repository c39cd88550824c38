import MetricCatalog.Proofs.Inspection.Projection
import MetricCatalog.Proofs.Inspection.Reports
import MetricCatalog.Proofs.Text.WellFormed
import MetricCatalog.Proofs.Vocabulary.Names

/-!
# Stages — the kind, the file, the payload

A run stops at the first stage that is not right and says so, whatever the later stages would have come to.
Only a run that passes all three prints. What the report says is told for every log, line by line.
-/

namespace MetricCatalog

open Json

/-! ## 1. Files that a path names -/

namespace Directory

/-- Names lead from a position to another one: each is looked up in a directory. -/
inductive Leads (d : Directory) : Position → List String → Position → Prop
  | refl (p : Position) : d.Leads p [] p
  | step {p q r : Position} {name : String} {rest : List String} :
      d.entry? p = some .directory → p.step name = .ok q → d.Leads q rest r → d.Leads p (name :: rest) r

/-- A path names a file with these bytes. -/
def Names (d : Directory) (path : String) (bytes : Bytes) : Prop :=
  path ≠ "" ∧ path.utf8ByteSize ≤ pathLimit ∧
    ∃ p, d.Leads (if path.toList.head? = some '/' then .outside else .inside []) (path.splitOn "/") p ∧
      d.entry? p = some (.file bytes)

variable {d : Directory} {bytes : Bytes}

theorem follow_eq_ok {names : List String} {p : Position} :
    d.follow names p = .ok bytes ↔ ∃ q, d.Leads p names q ∧ d.entry? q = some (.file bytes) := by
  induction names generalizing p with
  | nil =>
    rw [follow]
    constructor
    · intro h
      refine ⟨p, .refl p, ?_⟩
      rcases hentry : d.entry? p with - | (content | -) <;> rw [hentry] at h <;> cases h
      rfl
    · rintro ⟨q, hq, hentry⟩
      cases hq
      rw [hentry]
  | cons name rest ih =>
    rw [follow]
    constructor
    · intro h
      rcases hentry : d.entry? p with - | (content | -) <;> rw [hentry] at h
      · cases h
      · cases h
      · cases hstep : p.step name with
        | error cause =>
          rw [hstep] at h
          cases h
        | ok q =>
          rw [hstep] at h
          obtain ⟨r, hr, hfile⟩ := ih.1 h
          exact ⟨r, .step hentry hstep hr, hfile⟩
    · rintro ⟨r, hr, hfile⟩
      cases hr with
      | step hentry hstep hrest =>
        rw [hentry]
        change (p.step name >>= fun q => d.follow rest q) = _
        rw [hstep]
        exact ih.2 ⟨r, hrest, hfile⟩

/-- What is read of a directory are the files that paths name. -/
theorem read_eq_ok {path : String} : d.read path = .ok bytes ↔ d.Names path bytes := by
  rw [read, Names]
  split
  next h => exact ⟨nofun, fun hnames => absurd h hnames.1⟩
  next hne =>
    split
    next h => exact ⟨nofun, fun hnames => absurd hnames.2.1 (Nat.not_le.2 h)⟩
    next hlimit =>
      rw [follow_eq_ok]
      exact ⟨fun h => ⟨hne, Nat.not_lt.1 hlimit, h⟩, fun h => h.2.2⟩

/-- A name that stands for itself in a path. -/
def PlainName (name : String) : Prop :=
  name ≠ "" ∧ name ≠ "." ∧ name ≠ ".." ∧ '/' ∉ name.toList ∧ name.utf8ByteSize ≤ nameLimit

instance (name : String) : Decidable (PlainName name) := inferInstanceAs (Decidable (_ ∧ _))

/-- A path of one name leads to what the directory has under it. -/
theorem read_name {name : String} (h : PlainName name) (hroot : d.entries.lookup [] = none) :
    d.read name =
      match d.find? [name] with
      | none => .error .noSuchFile
      | some .directory => .error .isADirectory
      | some (.file bytes) => .ok bytes := by
  obtain ⟨hne, hdot, hdots, hslash, hlimit⟩ := h
  have hpath : ¬ pathLimit < name.utf8ByteSize := by
    have : nameLimit ≤ pathLimit := by decide
    omega
  have habsolute : name.toList.head? ≠ some '/' := fun hhead => hslash (List.mem_of_mem_head? hhead)
  have hstep : Position.step (.inside []) name = .ok (.inside [name]) := by
    rw [Position.step, if_neg (not_or.2 ⟨hne, hdot⟩), if_neg (Nat.not_lt.2 hlimit)]
    exact if_neg hdots
  have hparts : name.splitOn "/" = [name] := Text.splitOn_eq_single hslash
  have hentry : d.entry? (.inside []) = some .directory := by
    change d.find? [] = _
    rw [find?, hroot]
    rfl
  rw [read, if_neg hne, if_neg hpath, hparts]
  change d.follow [name] (if name.toList.head? = some '/' then .outside else .inside []) = _
  rw [if_neg habsolute, follow, hentry]
  change (Position.step (.inside []) name >>= fun q => d.follow [] q) = _
  rw [hstep]
  rfl

end Directory

/-! ## 2. Texts in files -/

theorem textOfFile_eq_ok {bytes : Bytes} {text : String} :
    textOfFile bytes = .ok text ↔ bytes = text.toUTF8.data.toList := by
  rw [← Utf8.encode_toList, textOfFile, Utf8.decode?]
  constructor
  · intro h
    rcases hdecode : Utf8.decode bytes with ⟨s, - | ⟨b, rest⟩⟩ <;> rw [hdecode] at h <;> cases h
    rw [String.toList_ofList]
    exact Utf8.encode_of_decode hdecode
  · rintro rfl
    rw [Utf8.decode_encode]
    exact congrArg Except.ok String.ofList_toList

theorem textOfFile_illFormed {bytes : Bytes} (h : ¬ bytes.toByteArray.IsValidUTF8) :
    textOfFile bytes = .error .notUtf8 := by
  rw [textOfFile, Utf8.decode?]
  rcases hdecode : Utf8.decode bytes with ⟨s, - | ⟨b, rest⟩⟩
  · exact absurd (Utf8.wellFormed_iff.1 ⟨s, Utf8.encode_of_decode hdecode⟩) h
  · rfl

/-- No text can be had from what `read` answers, and this is the cause. -/
def NoText (answer : Except ReadFailure Bytes) (cause : ReadFailure) : Prop :=
  answer = .error cause ∨
    ∃ bytes, answer = .ok bytes ∧ ¬ bytes.toByteArray.IsValidUTF8 ∧ cause = .notUtf8

theorem noText_iff {answer : Except ReadFailure Bytes} {cause : ReadFailure} :
    NoText answer cause ↔ answer >>= textOfFile = .error cause := by
  constructor
  · rintro (rfl | ⟨bytes, rfl, hbytes, rfl⟩)
    · rfl
    · exact textOfFile_illFormed hbytes
  · intro h
    cases answer with
    | error cause' =>
      cases h
      exact .inl rfl
    | ok bytes =>
      replace h : textOfFile bytes = .error cause := h
      have hbytes : ¬ bytes.toByteArray.IsValidUTF8 := by
        intro hvalid
        obtain ⟨s, rfl⟩ := Utf8.wellFormed_iff.2 hvalid
        have htext : textOfFile (Utf8.encode s) = .ok (String.ofList s) :=
          textOfFile_eq_ok.2 (by rw [← Utf8.encode_toList, String.toList_ofList])
        rw [htext] at h
        cases h
      rw [textOfFile_illFormed hbytes] at h
      cases h
      exact .inr ⟨bytes, rfl, hbytes, rfl⟩

/-! ## 3. How a run ends -/

/-- Runs an inspection where `read` tells what stands at a path. -/
def runOn (log : Log) (read : String → Except ReadFailure Bytes) (settings : Settings) : Outcome :=
  Id.run (run log (fun path => pure (read path)) settings)

/-- What becomes of a run once its file has been asked for. -/
def Outcome.answered (log : Log) (s : Settings) (kind : PayloadKind) (answer : Except ReadFailure Bytes) :
    Outcome :=
  match answer >>= textOfFile with
  | .error cause => .unreadable log s cause
  | .ok text => .inspected log s kind text

section
variable {m : Type → Type} [Monad m] {settings : Settings} (log : Log)

/-- A run of a known kind asks for its file once and depends on nothing but the answer. -/
theorem run_known [LawfulMonad m] {kind : PayloadKind} (h : Vocabulary.name kind = settings.kind)
    (read : String → m (Except ReadFailure Bytes)) :
    run log read settings = Outcome.answered log settings kind <$> read settings.path := by
  rw [run, Vocabulary.parse_eq_ok.2 h.symm, map_eq_pure_bind]
  refine bind_congr fun answer => ?_
  rw [Outcome.answered]
  cases answer >>= textOfFile <;> rfl

/-- A run of an unknown kind does not ask for its file. -/
theorem run_unknown (h : ∀ kind : PayloadKind, Vocabulary.name kind ≠ settings.kind)
    (read : String → m (Except ReadFailure Bytes)) :
    run log read settings = pure (.unknownKind log settings (.unknownWord .payloadKind settings.kind)) := by
  rw [run, Vocabulary.parse_eq_error.2 fun kind => (h kind).symm]
  rfl

end

section
variable (log : Log) (read : String → Except ReadFailure Bytes) (settings : Settings)

theorem runOn_unknown (h : ∀ kind : PayloadKind, Vocabulary.name kind ≠ settings.kind) :
    runOn log read settings = .unknownKind log settings (.unknownWord .payloadKind settings.kind) := by
  rw [runOn, run_unknown log h]
  rfl

theorem runOn_unreadable {kind : PayloadKind} {cause : ReadFailure}
    (hkind : Vocabulary.name kind = settings.kind) (hcause : NoText (read settings.path) cause) :
    runOn log read settings = .unreadable log settings cause := by
  rw [runOn, run_known log hkind]
  change Outcome.answered log settings kind (read settings.path) = _
  rw [Outcome.answered, noText_iff.1 hcause]

theorem runOn_inspected {kind : PayloadKind} {text : String} (hkind : Vocabulary.name kind = settings.kind)
    (htext : read settings.path = .ok text.toUTF8.data.toList) :
    runOn log read settings = .inspected log settings kind text := by
  have hanswer : read settings.path >>= textOfFile = .ok text := by
    rw [htext]
    exact textOfFile_eq_ok.2 rfl
  rw [runOn, run_known log hkind]
  change Outcome.answered log settings kind (read settings.path) = _
  rw [Outcome.answered, hanswer]

/-- Every run is at one of the stages. -/
theorem runOn_cases :
    (∀ kind : PayloadKind, Vocabulary.name kind ≠ settings.kind) ∨
      ∃ kind : PayloadKind, Vocabulary.name kind = settings.kind ∧
        ((∃ cause, NoText (read settings.path) cause) ∨
          ∃ text : String, read settings.path = .ok text.toUTF8.data.toList) := by
  by_cases hkind : ∃ kind : PayloadKind, Vocabulary.name kind = settings.kind
  · obtain ⟨kind, hkind⟩ := hkind
    refine .inr ⟨kind, hkind, ?_⟩
    cases hanswer : read settings.path >>= textOfFile with
    | error cause => exact .inl ⟨cause, noText_iff.2 hanswer⟩
    | ok text =>
      obtain ⟨bytes, hbytes, htext⟩ := ok_of_bind hanswer
      exact .inr ⟨text, by rw [hbytes, textOfFile_eq_ok.1 htext]⟩
  · exact .inl fun kind h => hkind ⟨kind, h⟩

end

/-- A run exits with 0 exactly when its kind is known, its file is there and holds a text, and the text can
be inspected as that kind. It then prints what is shown of the text and a newline. Any other run exits with
1 and prints nothing, and its report is about the first stage that is not right: the kind, whatever the file
is, then the file, whatever the kind makes of its bytes, then the payload. Of a log of errors alone, the report
begins with that stage. -/
theorem runOn_ends (log : Log) (read : String → Except ReadFailure Bytes) (given : List (String × String)) :
    let word := (given.lookup "DJ_PAYLOAD_KIND").getD "node"
    let path := (given.lookup "DJ_PAYLOAD_PATH").getD "payload.json"
    let outcome := runOn log read (Settings.ofVariables given)
    (outcome.exitCode = 0 ↔ ∃ (kind : PayloadKind) (text canonical : String),
      Vocabulary.name kind = word ∧ read path = .ok text.toUTF8.data.toList ∧
        inspect kind text = .ok canonical) ∧
    (∀ (kind : PayloadKind) (text canonical : String), Vocabulary.name kind = word →
      read path = .ok text.toUTF8.data.toList → inspect kind text = .ok canonical →
        outcome.output = canonical ++ "\n") ∧
    (outcome.exitCode ≠ 0 → outcome.exitCode = 1 ∧ outcome.output = "") ∧
    ((∀ kind : PayloadKind, Vocabulary.name kind ≠ word) →
      outcome.exitCode = 1 ∧
      outcome.report = log.shownSettings path word ++
        log.shown 1 .error .command "ERROR inspect" "Invalid DJ_PAYLOAD_KIND: Unknown payload kind: " word ++
        ("Error: UnknownPayloadKind(" ++ Text.quoted word ++ ")\n") ∧
      (log.ErrorsAlone → ∃ more, outcome.report =
        "[" ++ log.time 1 ++ "ERROR inspect] Invalid DJ_PAYLOAD_KIND: Unknown payload kind: " ++ more)) ∧
    (∀ (kind : PayloadKind) (cause : ReadFailure), Vocabulary.name kind = word → NoText (read path) cause →
      outcome.exitCode = 1 ∧
      outcome.report = log.shownSettings path word ++
        log.shown 1 .error .command "ERROR inspect" "Failed to read " (path ++ ": " ++ cause.message) ++
        ("Error: Io \x7b path: " ++ Text.quoted path ++ ", source: " ++ cause.detail ++ " \x7d\n") ∧
      (log.ErrorsAlone → ∃ more, outcome.report =
        "[" ++ log.time 1 ++ "ERROR inspect] Failed to read " ++ more)) ∧
    (∀ (kind : PayloadKind) (text : String) (e : Error), Vocabulary.name kind = word →
      read path = .ok text.toUTF8.data.toList → inspect kind text = .error e →
        ∃ refusal, e = .json refusal ∧ outcome.exitCode = 1 ∧
          outcome.report = log.shownSettings path word ++ log.shownRefusal kind word path text refusal ∧
          (log.ErrorsAlone → ∃ cause more, outcome.report =
            "[" ++ log.time 4 ++ "ERROR datajunction_models::codec] Failed to decode " ++ cause ++
            "[" ++ log.time 5 ++ "ERROR inspect] Payload does not match the " ++ word ++
              " model: JSON error: " ++ more)) ∧
    ∀ d : Directory, runIn d given log = runOn log d.read (Settings.ofVariables given) ∧
      ∀ bytes, d.read path = .ok bytes ↔ d.Names path bytes := by
  intro word path outcome
  have hshown : ∀ (kind : PayloadKind) (text canonical : String), Vocabulary.name kind = word →
      read path = .ok text.toUTF8.data.toList → inspect kind text = .ok canonical →
        outcome.exitCode = 0 ∧ outcome.output = canonical ++ "\n" := by
    intro kind text canonical hkind htext hcanonical
    rw [show outcome = _ from runOn_inspected log read (.ofVariables given) hkind htext]
    exact Outcome.inspected_ok log (.ofVariables given) hcanonical
  have hkindless : (∀ kind : PayloadKind, Vocabulary.name kind ≠ word) →
      outcome = .unknownKind log (.ofVariables given) (.unknownWord .payloadKind word) :=
    runOn_unknown log read (.ofVariables given)
  have hfileless : ∀ (kind : PayloadKind) (cause : ReadFailure), Vocabulary.name kind = word →
      NoText (read path) cause → outcome = .unreadable log (.ofVariables given) cause :=
    fun kind cause => runOn_unreadable log read (.ofVariables given)
  have hrefused : ∀ (kind : PayloadKind) (text : String) (e : Error), Vocabulary.name kind = word →
      read path = .ok text.toUTF8.data.toList → inspect kind text = .error e →
        outcome.exitCode = 1 ∧ outcome.output = "" := by
    intro kind text e hkind htext he
    rw [show outcome = _ from runOn_inspected log read (.ofVariables given) hkind htext]
    exact Outcome.inspected_error log (.ofVariables given) he
  -- Every run is at a stage; past the first two, the payload decides.
  have hcases : (outcome.exitCode = 1 ∧ outcome.output = "") ∨
      ∃ (kind : PayloadKind) (text canonical : String), Vocabulary.name kind = word ∧
        read path = .ok text.toUTF8.data.toList ∧ inspect kind text = .ok canonical := by
    rcases runOn_cases read (.ofVariables given) with
      hword | ⟨kind, hkind, ⟨cause, hcause⟩ | ⟨text, htext⟩⟩
    · rw [hkindless hword]
      exact .inl ⟨rfl, rfl⟩
    · rw [hfileless kind cause hkind hcause]
      exact .inl ⟨rfl, rfl⟩
    · cases hcanonical : inspect kind text with
      | ok canonical => exact .inr ⟨kind, text, canonical, hkind, htext, hcanonical⟩
      | error e => exact .inl (hrefused kind text e hkind htext hcanonical)
  refine ⟨⟨fun h => ?_, ?_⟩,
    fun kind text canonical hkind htext h => (hshown kind text canonical hkind htext h).2,
    fun h => ?_, fun h => ?_, fun kind cause hkind hcause => ?_,
    fun kind text e hkind htext he => ?_, fun d => ⟨rfl, fun bytes => Directory.read_eq_ok⟩⟩
  · rcases hcases with ⟨hexit, -⟩ | h'
    · rw [h] at hexit
      cases hexit
    · exact h'
  · rintro ⟨kind, text, canonical, hkind, htext, hcanonical⟩
    exact (hshown kind text canonical hkind htext hcanonical).1
  · rcases hcases with h' | ⟨kind, text, canonical, hkind, htext, hcanonical⟩
    · exact h'
    · exact absurd (hshown kind text canonical hkind htext hcanonical).1 h
  · have houtcome := hkindless h
    have hreport : outcome.report = _ :=
      (congrArg Outcome.report houtcome).trans (Outcome.report_unknownKind log (.ofVariables given))
    refine ⟨congrArg Outcome.exitCode houtcome, hreport, fun herrors => ?_⟩
    rw [hreport]
    exact herrors.report_begins path word _ rfl
  · have houtcome := hfileless kind cause hkind hcause
    have hreport : outcome.report = _ :=
      (congrArg Outcome.report houtcome).trans (Outcome.report_unreadable log (.ofVariables given) cause)
    refine ⟨congrArg Outcome.exitCode houtcome, hreport, fun herrors => ?_⟩
    rw [hreport]
    exact herrors.report_begins path word _ rfl
  · obtain ⟨refusal, rfl⟩ := decode_error (decode_of_inspect he)
    have hreport : outcome.report = log.shownSettings path word ++ log.shownRefusal kind word path text refusal := by
      rw [show outcome = _ from runOn_inspected log read (.ofVariables given) hkind htext]
      exact Outcome.report_inspected log (.ofVariables given) hkind he
    refine ⟨refusal, rfl, (hrefused kind text _ hkind htext he).1, hreport, fun herrors => ?_⟩
    rw [hreport]
    exact herrors.refusal_begins path word kind text refusal

/-- An unknown kind is reported though there is no file, and a file that is not UTF-8 though its bytes are
decoded as an engine. A number is refused as a payload, and an empty object is shown. -/
theorem runOn_ends_engine :
    let given : List (String × String) := [("DJ_PAYLOAD_KIND", "engine")]
    let holding : Bytes → Directory := fun bytes => { entries := [(["payload.json"], .file bytes)] }
    let illFormed : Bytes := Utf8.encode "\x7b\"x\":\"".toList ++ [0xFF] ++ Utf8.encode "\"\x7d".toList
    let timed : Log := { Log.errors with stamp? := fun _ => some ⟨"2025-01-01T00:00:00Z", by decide⟩ }
    ((runIn { entries := [] } [("DJ_PAYLOAD_KIND", "Engine")]).exitCode = 1 ∧
      (runIn { entries := [] } [("DJ_PAYLOAD_KIND", "Engine")]).report =
        "[ERROR inspect] Invalid DJ_PAYLOAD_KIND: Unknown payload kind: Engine\n" ++
          "Error: UnknownPayloadKind(\"Engine\")\n") ∧
    decodeBytes Response.Engine illFormed = .ok {} ∧
    ((runIn (holding illFormed) given).exitCode = 1 ∧ (runIn (holding illFormed) given).report =
      "[ERROR inspect] Failed to read payload.json: stream did not contain valid UTF-8\n" ++
        "Error: Io \x7b path: \"payload.json\", source: Error \x7b kind: InvalidData, " ++
          "message: \"stream did not contain valid UTF-8\" \x7d \x7d\n") ∧
    ((runIn (holding "7".toUTF8.data.toList) given timed).exitCode = 1 ∧
      (runIn (holding "7".toUTF8.data.toList) given timed).output = "" ∧
      ∃ cause more, (runIn (holding "7".toUTF8.data.toList) given timed).report =
        "[2025-01-01T00:00:00Z ERROR datajunction_models::codec] Failed to decode " ++ cause ++
        "[2025-01-01T00:00:00Z ERROR inspect] Payload does not match the engine model: JSON error: " ++ more) ∧
    ((runIn (holding "\x7b\x7d".toUTF8.data.toList) given).exitCode = 0 ∧
      (runIn (holding "\x7b\x7d".toUTF8.data.toList) given).output =
        encodePretty ({} : Response.Engine) ++ "\n") := by
  intro given holding illFormed timed
  have hread : ∀ bytes, (holding bytes).read "payload.json" = .ok bytes := fun bytes =>
    Directory.read_name (by decide) rfl
  have hdecoded : decodeBytes Response.Engine illFormed = .ok {} := toOption_eq_some.1 (by decide +kernel)
  have hempty : decode Response.Engine "\x7b\x7d" = .ok {} := toOption_eq_some.1 (by decide +kernel)
  have hshown : inspect .engine "\x7b\x7d" = .ok (encodePretty ({} : Response.Engine)) :=
    inspect_eq_ok.2 ⟨({} : Response.Engine), hempty, rfl⟩
  obtain ⟨e, hrefused⟩ : ∃ e, inspect .engine "7" = .error e := by
    cases hinspect : inspect .engine "7" with
    | error e => exact ⟨e, rfl⟩
    | ok canonical =>
      obtain ⟨a, ha, -⟩ := inspect_eq_ok.1 hinspect
      have hnone : (decode PayloadKind.engine.Answer "7").toOption = none := by decide +kernel
      rw [ha] at hnone
      cases hnone
  have hkind : Vocabulary.name PayloadKind.engine = "engine" := rfl
  refine ⟨?_, hdecoded, ?_, ?_, ?_⟩
  · obtain ⟨-, -, -, hunknown, -⟩ :=
      runOn_ends .command ({ entries := [] } : Directory).read [("DJ_PAYLOAD_KIND", "Engine")]
    obtain ⟨hexit, hreport, -⟩ := hunknown (by intro kind; cases kind <;> decide)
    refine ⟨hexit, hreport.trans ?_⟩
    rw [Log.shownSettings, Log.shown_of_printed _ _ (by decide), Log.shown_of_printed _ _ (by decide)]
    decide +kernel
  · obtain ⟨-, -, -, -, hunreadable, -⟩ := runOn_ends .command (holding illFormed).read given
    obtain ⟨hexit, hreport, -⟩ :=
      hunreadable .engine .notUtf8 hkind (.inr ⟨illFormed, hread illFormed, by decide +kernel, rfl⟩)
    refine ⟨hexit, hreport.trans ?_⟩
    rw [Log.shownSettings, Log.shown_of_printed _ _ (by decide), Log.shown_of_printed _ _ (by decide)]
    decide +kernel
  · obtain ⟨-, -, hfailed, -, -, hpayload, -⟩ := runOn_ends timed (holding "7".toUTF8.data.toList).read given
    obtain ⟨-, -, hexit, -, hbegins⟩ := hpayload .engine "7" e hkind (hread _) hrefused
    have hone : (runIn (holding "7".toUTF8.data.toList) given timed).exitCode ≠ 0 := by
      intro hzero
      cases hexit.symm.trans hzero
    obtain ⟨cause, more, hreport⟩ := hbegins fun r => decide_eq_true_iff
    have hcodec : "[" ++ timed.time 4 ++ "ERROR datajunction_models::codec] Failed to decode " =
        "[2025-01-01T00:00:00Z ERROR datajunction_models::codec] Failed to decode " := by decide +kernel
    have hcommand : "[" ++ timed.time 5 ++ "ERROR inspect] Payload does not match the " ++
        (given.lookup "DJ_PAYLOAD_KIND").getD "node" ++ " model: JSON error: " =
          "[2025-01-01T00:00:00Z ERROR inspect] Payload does not match the engine model: JSON error: " := by
      decide +kernel
    refine ⟨hexit, (hfailed hone).2, cause, more, hreport.trans ?_⟩
    rw [← hcodec, ← hcommand]
    simp only [String.append_assoc]
  · obtain ⟨hzero, houtput, -⟩ := runOn_ends .command (holding "\x7b\x7d".toUTF8.data.toList).read given
    exact ⟨hzero.2 ⟨.engine, _, _, hkind, hread _, hshown⟩,
      houtput .engine _ _ hkind (hread _) hshown⟩

end MetricCatalog

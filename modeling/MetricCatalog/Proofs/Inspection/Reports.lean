import MetricCatalog.Inspection.Run
import MetricCatalog.Proofs.Inspection.Log

/-!
# Reports — what a run says of itself, line by line

A run leaves records of its settings, of what it reads and of what goes wrong. For every log its report is told
here as the lines of these records, each with its heading and the words that it begins with. A log of errors
alone leaves nothing else in front of the stage at which the run stopped.
-/

namespace MetricCatalog

/-! ## 1. Lines of a run -/

theorem decode_of_inspect {kind : PayloadKind} {text : String} {e : Error} (h : inspect kind text = .error e) :
    decode kind.Answer text = .error e := by
  unfold inspect at h
  cases hdecode : decode kind.Answer text with
  | ok a =>
    rw [hdecode] at h
    cases h
  | error e' =>
    rw [hdecode] at h
    cases h
    rfl

/-- A text is refused for what is wrong in it, and for nothing else. -/
theorem decode_error {α : Type} [Wire α] {text : String} {e : Error} (h : decode α text = .error e) :
    ∃ refusal, e = .json refusal := by
  rw [decode, decodeBytes] at h
  split at h
  · cases h
  · cases h
    exact ⟨_, rfl⟩

theorem PayloadKind.printed_name (kind : PayloadKind) : Text.Printed (Vocabulary.name kind) := by
  cases kind <;> decide

namespace Log

variable (log : Log)

/-- What is shown of the settings. -/
def shownSettings (path word : String) : String :=
  log.shown 0 .debug .settings "DEBUG datajunction_models::config" "InspectConfig loaded: payload_path="
    (path ++ ", payload_kind=" ++ word)

/-- What is shown of a text that is read and refused. -/
def shownRefusal (kind : PayloadKind) (word path text : String) (refusal : Json.Refusal) : String :=
  log.shown 1 .info .command "INFO  inspect" "Read " (toString text.utf8ByteSize ++ " bytes from " ++ path) ++
    log.shown 2 .debug .payload "DEBUG datajunction_models::payload" "Inspecting " (word ++ " payload") ++
    log.shown 3 .debug .codec "DEBUG datajunction_models::codec" "Decoding "
      (log.typeName kind ++ " from " ++ toString text.utf8ByteSize ++ " bytes") ++
    log.shown 4 .error .codec "ERROR datajunction_models::codec" "Failed to decode "
      (log.typeName kind ++ ": " ++ refusal.message) ++
    log.shown 5 .error .command "ERROR inspect" ("Payload does not match the " ++ word ++ " model: JSON error: ")
      refusal.message

end Log

/-! ## 2. Reports -/

namespace Outcome

variable (log : Log) (s : Settings)

theorem line_settings : log.line 0 s.record = log.shownSettings s.path s.kind :=
  log.line_eq_shown 0 _ _ rfl (by decide) (by simp only [String.append_assoc])

theorem report_unknownKind : (unknownKind log s (.unknownWord .payloadKind s.kind)).report =
    log.shownSettings s.path s.kind ++
      log.shown 1 .error .command "ERROR inspect" "Invalid DJ_PAYLOAD_KIND: Unknown payload kind: " s.kind ++
      ("Error: UnknownPayloadKind(" ++ Text.quoted s.kind ++ ")\n") := by
  have htext : "Invalid " ++ Settings.kindVariable ++ ": " ++ (Error.unknownWord .payloadKind s.kind).message =
      "Invalid DJ_PAYLOAD_KIND: Unknown payload kind: " ++ s.kind := by
    change "Invalid DJ_PAYLOAD_KIND: " ++ ("Unknown payload kind: " ++ s.kind) = _
    rw [← String.append_assoc]
    rfl
  simp only [unknownKind, Log.report, Log.reportFrom, String.append_empty, line_settings, Nat.zero_add]
  rw [log.line_eq_shown 1 "ERROR inspect" "Invalid DJ_PAYLOAD_KIND: Unknown payload kind: " rfl (by decide) htext]
  simp only [String.append_assoc]

theorem report_unreadable (cause : ReadFailure) : (unreadable log s cause).report =
    log.shownSettings s.path s.kind ++
      log.shown 1 .error .command "ERROR inspect" "Failed to read " (s.path ++ ": " ++ cause.message) ++
      ("Error: Io \x7b path: " ++ Text.quoted s.path ++ ", source: " ++ cause.detail ++ " \x7d\n") := by
  have htext : (Error.unreadable s.path cause.message).message =
      "Failed to read " ++ (s.path ++ ": " ++ cause.message) := by
    change "Failed to read " ++ s.path ++ ": " ++ cause.message = _
    simp only [String.append_assoc]
  simp only [unreadable, Log.report, Log.reportFrom, String.append_empty, line_settings, Nat.zero_add]
  rw [log.line_eq_shown 1 "ERROR inspect" "Failed to read " rfl (by decide) htext]
  simp only [String.append_assoc]

theorem inspected_ok {kind : PayloadKind} {text canonical : String} (h : inspect kind text = .ok canonical) :
    (inspected log s kind text).exitCode = 0 ∧ (inspected log s kind text).output = canonical ++ "\n" := by
  rw [inspected, h]
  exact ⟨rfl, rfl⟩

theorem inspected_error {kind : PayloadKind} {text : String} {e : Error} (h : inspect kind text = .error e) :
    (inspected log s kind text).exitCode = 1 ∧ (inspected log s kind text).output = "" := by
  rw [inspected, h]
  exact ⟨rfl, rfl⟩

theorem report_inspected {kind : PayloadKind} {text : String} {refusal : Json.Refusal}
    (hkind : Vocabulary.name kind = s.kind) (h : inspect kind text = .error (.json refusal)) :
    (inspected log s kind text).report =
      log.shownSettings s.path s.kind ++ log.shownRefusal kind s.kind s.path text refusal := by
  have hfront : Text.Printed ("Payload does not match the " ++ (Vocabulary.name kind ++ " model: JSON error: ")) :=
    .append (by decide) (kind.printed_name.append (by decide))
  have htext : "Payload does not match the " ++
      (Vocabulary.name kind ++ (" model: " ++ (Error.json refusal).message)) =
        "Payload does not match the " ++ (Vocabulary.name kind ++ " model: JSON error: ") ++ refusal.message := by
    have hmessage : " model: " ++ (Error.json refusal).message = " model: JSON error: " ++ refusal.message := by
      change " model: " ++ ("JSON error: " ++ refusal.message) = _
      rw [← String.append_assoc]
      rfl
    rw [hmessage, String.append_assoc, String.append_assoc]
  simp only [inspected, h, inspectionRecords, decode_of_inspect h, Error.cause, Log.report, Log.reportFrom,
    Log.shownRefusal, List.cons_append, List.nil_append, String.append_empty, line_settings, Nat.reduceAdd,
    String.append_assoc]
  rw [← hkind, log.line_eq_shown 1 "INFO  inspect" "Read " rfl (by decide) rfl,
    log.line_eq_shown 2 "DEBUG datajunction_models::payload" "Inspecting " rfl (by decide) rfl,
    log.line_eq_shown 3 "DEBUG datajunction_models::codec" "Decoding " rfl (by decide) rfl,
    log.line_eq_shown 4 "ERROR datajunction_models::codec" "Failed to decode " rfl (by decide) rfl,
    log.line_eq_shown 5 "ERROR inspect" _ rfl hfront htext]

end Outcome

/-! ## 3. Reports of errors alone -/

namespace Log.ErrorsAlone

variable {log : Log} (h : log.ErrorsAlone) (path word : String)

include h

theorem shownSettings_eq_empty : log.shownSettings path word = "" := h.shown_debug

/-- A run that stops before it has a text reports that first. -/
theorem report_begins {part : Part} {head front rest start : String} (last : String)
    (hstart : head ++ "] " ++ front = start) :
    ∃ more, log.shownSettings path word ++ log.shown 1 .error part head front rest ++ last =
      "[" ++ log.time 1 ++ start ++ more := by
  have hshown : ∃ more, log.shown 1 .error part head front rest = "[" ++ log.time 1 ++ start ++ more :=
    h.shown_begins hstart
  obtain ⟨more, hmore⟩ := hshown
  refine ⟨more ++ last, ?_⟩
  rw [h.shownSettings_eq_empty, hmore]
  simp only [String.append_assoc, String.empty_append]

/-- A run that has a text and refuses it reports what the decoder says of it, and then the kind. -/
theorem refusal_begins (kind : PayloadKind) (text : String) (refusal : Json.Refusal) :
    ∃ cause more, log.shownSettings path word ++ log.shownRefusal kind word path text refusal =
      "[" ++ log.time 4 ++ "ERROR datajunction_models::codec] Failed to decode " ++ cause ++
      "[" ++ log.time 5 ++ "ERROR inspect] Payload does not match the " ++ word ++ " model: JSON error: " ++
        more := by
  have hdecoder : ∃ cause, log.shown 4 .error .codec "ERROR datajunction_models::codec" "Failed to decode "
      (log.typeName kind ++ ": " ++ refusal.message) =
        "[" ++ log.time 4 ++ "ERROR datajunction_models::codec] Failed to decode " ++ cause := h.shown_begins rfl
  have hcommand : ∃ more, log.shown 5 .error .command "ERROR inspect"
      ("Payload does not match the " ++ word ++ " model: JSON error: ") refusal.message =
        "[" ++ log.time 5 ++ ("ERROR inspect] Payload does not match the " ++ (word ++ " model: JSON error: ")) ++
          more := by
    refine h.shown_begins ?_
    rw [String.append_assoc, ← String.append_assoc]
    rfl
  obtain ⟨cause, hcause⟩ := hdecoder
  obtain ⟨more, hmore⟩ := hcommand
  refine ⟨cause, more, ?_⟩
  rw [h.shownSettings_eq_empty, Log.shownRefusal, h.shown_info, h.shown_debug, h.shown_debug, hcause, hmore]
  simp only [String.append_assoc, String.empty_append]

end Log.ErrorsAlone

end MetricCatalog

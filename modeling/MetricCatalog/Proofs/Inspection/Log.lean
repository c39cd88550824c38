import MetricCatalog.Inspection.Log
import MetricCatalog.Proofs.Text.Split

/-!
# Log lines — what stands at their front

What a record says may hold anything that a path or a payload holds. The heading of a line, and the words with
which a record begins, are shown as they are, whatever stands behind them (`Log.line_eq_shown`).
-/

namespace MetricCatalog

/-! ## 1. Text that is shown as it is -/

namespace Text

/-- A text without control characters. -/
def Printed (text : String) : Prop := text.toList.all (!isControl ·) = true

instance (text : String) : Decidable (Printed text) := inferInstanceAs (Decidable (_ = _))

theorem Printed.not_control {text : String} (h : Printed text) {c : Char} (hc : c ∈ text.toList) :
    isControl c = false := by
  simpa using List.all_eq_true.1 h c hc

theorem Printed.append {front rest : String} (hfront : Printed front) (hrest : Printed rest) :
    Printed (front ++ rest) := by
  rw [Printed, String.toList_append, List.all_append, hfront, hrest, Bool.and_self]

/-- A character that is shown where no sequence is open does not open one. -/
theorem Sequence.next_outside {c : Char} (h : outside.shows c = true) : outside.next c = outside := by
  have hne : ∀ control, outside.shows control = false → c ≠ control := by
    rintro control hcontrol rfl
    rw [h] at hcontrol
    cases hcontrol
  rw [next, if_neg (hne _ (by decide)), if_neg (not_or.2 ⟨hne _ (by decide), hne _ (by decide)⟩)]

theorem Sequence.shows_outside {c : Char} (h : isControl c = false) : outside.shows c = true := by
  rw [shows, h]
  rfl

/-- Where no sequence is open there is none to suspend. -/
theorem plainFrom_suspended (suspended : Bool) (cs : List Char) :
    plainFrom .outside suspended cs = plainFrom .outside false cs := by
  cases cs with
  | nil => rfl
  | cons c cs =>
    rw [plainFrom, plainFrom]
    by_cases h : Sequence.outside.shows c = true
    · rw [Sequence.next_outside h, ite_self]
      simp [h]
    · simp [h]

theorem plainFrom_append {front : List Char} (h : ∀ c ∈ front, isControl c = false) (rest : List Char) :
    plainFrom .outside false (front ++ rest) = front ++ plainFrom .outside false rest := by
  induction front with
  | nil => rfl
  | cons c front ih =>
    obtain ⟨hc, hfront⟩ := List.forall_mem_cons.1 h
    have hshows := Sequence.shows_outside hc
    rw [List.cons_append, plainFrom, if_neg (by simp), if_pos hshows, Sequence.next_outside hshows,
      plainFrom_suspended, ih hfront, List.cons_append]

theorem plain_append {front : String} (h : Printed front) (rest : String) :
    plain (front ++ rest) = front ++ plain rest := by
  rw [plain, String.toList_append, plainFrom_append fun c => h.not_control, String.ofList_append,
    String.ofList_toList, plain]

end Text

theorem newline_eq : "\n" = String.singleton '\n' := rfl

theorem hanging_append {front : String} (h : Text.Printed front) (rest : String) :
    hanging (front ++ rest) = front ++ hanging rest := by
  have hbreak : '\n' ∉ front.toList := fun hmem => absurd (h.not_control hmem) (by decide)
  obtain ⟨first, more, hparts⟩ := List.exists_cons_of_ne_nil (Text.splitOn_ne_nil rest '\n')
  rw [hanging, hanging, newline_eq, Text.splitOn_append hbreak, hparts, List.modifyHead_cons,
    String.intercalate_cons_append]

theorem plain_hanging {text : String} (h : Text.Printed text) :
    Text.plain (hanging text ++ "\n") = text ++ "\n" := by
  have hempty : hanging "" = "" := by
    rw [hanging, newline_eq, Text.splitOn_eq_single (by decide), String.intercalate_singleton]
  have hself : hanging text = text := by
    have happend := hanging_append h ""
    rwa [String.append_empty, hempty, String.append_empty] at happend
  rw [hself, Text.plain_append h]
  exact congrArg (text ++ ·) (by decide +kernel)

/-! ## 2. Lines -/

theorem Severity.printed_label (s : Severity) : Text.Printed s.label := by
  cases s <;> decide

theorem Part.printed_name (p : Part) : Text.Printed p.name := by
  cases p <;> decide

namespace Log

variable (log : Log) (n : Nat)

theorem printed_time : Text.Printed (log.time n) := by
  rw [time]
  cases log.stamp? n with
  | none => decide
  | some stamp => exact Text.Printed.append stamp.printed (by decide)

theorem printed_heading (r : LogRecord) : Text.Printed (log.heading n r) :=
  (((((by decide : Text.Printed "[").append (log.printed_time n)).append r.severity.printed_label).append
    (by decide)).append r.part.printed_name).append (by decide)

/-- The line of a record whose text begins with `front`: the time and `head` in brackets, `front` as it is, and
the rest in plain text. -/
def shown (severity : Severity) (part : Part) (head front rest : String) : String :=
  if log.shows ⟨severity, part, front ++ rest⟩ then
    "[" ++ log.time n ++ head ++ "] " ++ front ++ Text.plain (hanging rest ++ "\n")
  else ""

theorem line_eq_shown {severity : Severity} {part : Part} {text : String} (head front : String) {rest : String}
    (hhead : severity.label ++ " " ++ part.name = head) (hfront : Text.Printed front)
    (htext : text = front ++ rest) : log.line n ⟨severity, part, text⟩ = log.shown n severity part head front rest := by
  have hheading : log.heading n ⟨severity, part, text⟩ = "[" ++ log.time n ++ head ++ "] " := by
    rw [← hhead, heading]
    simp only [String.append_assoc]
  subst htext
  rw [line, shown, hanging_append hfront, String.append_assoc, String.append_assoc,
    Text.plain_append (log.printed_heading n _), Text.plain_append hfront, hheading]
  simp only [String.append_assoc]

/-- A text without control characters is shown as it is. -/
theorem shown_of_printed {severity : Severity} {part : Part} {head front rest : String} (h : Text.Printed rest) :
    log.shown n severity part head front rest = if log.shows ⟨severity, part, front ++ rest⟩ then
      "[" ++ log.time n ++ head ++ "] " ++ front ++ (rest ++ "\n") else "" := by
  rw [shown, plain_hanging h]

/-- The log shows errors and nothing else. -/
def ErrorsAlone : Prop := ∀ r, log.shows r = true ↔ r.severity = .error

variable {log n} {part : Part} {head front rest : String}

theorem ErrorsAlone.shown_error (h : log.ErrorsAlone) : log.shown n .error part head front rest =
    "[" ++ log.time n ++ head ++ "] " ++ front ++ Text.plain (hanging rest ++ "\n") :=
  if_pos ((h _).2 rfl)

/-- The line of an error begins with the time and what stands before the rest. -/
theorem ErrorsAlone.shown_begins (h : log.ErrorsAlone) {start : String} (hstart : head ++ "] " ++ front = start) :
    ∃ more, log.shown n .error part head front rest = "[" ++ log.time n ++ start ++ more := by
  refine ⟨Text.plain (hanging rest ++ "\n"), ?_⟩
  rw [h.shown_error, ← hstart]
  simp only [String.append_assoc]

theorem ErrorsAlone.shown_info (h : log.ErrorsAlone) : log.shown n .info part head front rest = "" :=
  if_neg fun hshows => by cases (h _).1 hshows

theorem ErrorsAlone.shown_debug (h : log.ErrorsAlone) : log.shown n .debug part head front rest = "" :=
  if_neg fun hshows => by cases (h _).1 hshows

end Log

end MetricCatalog

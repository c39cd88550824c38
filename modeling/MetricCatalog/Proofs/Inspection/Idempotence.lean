import MetricCatalog.Proofs.Inspection.Projection
import MetricCatalog.Proofs.Schema.Decoded
import MetricCatalog.Proofs.Schema.Extent

/-!
# Idempotence — what has been inspected stays as it is

What is shown of a payload can be inspected itself and is shown as it is, also with the newline behind it
that ends a printed text. So the forms that a payload may have in the place of records are gone after one
inspection.
-/

namespace MetricCatalog

open Json

/-- What holds of all payload types holds of the answers of every kind. -/
theorem PayloadKind.of_payloadType {P : (α : Type) → Wire α → Prop}
    (h : ∀ T : PayloadType, P T.Value inferInstance) : (kind : PayloadKind) → P kind.Answer inferInstance
  | catalog => h (.one .catalog)
  | catalogs => h (.many .catalog)
  | engine => h (.one .engine)
  | engines => h (.many .engine)
  | commonDimensions => h (.one .commonDimensions)
  | .namespace => h (.one .namespace)
  | node => h (.one .node)
  | nodes => h (.many .node)
  | sql => h (.one .sql)

/-- A field of the answer that may hold any document is set to null. -/
def PayloadKind.SetToNull : (kind : PayloadKind) → kind.Answer → Prop
  | node, n => Response.Node.SetToNull n
  | nodes, ns => ∃ n, List.Mem n ns ∧ Response.Node.SetToNull n
  | _, _ => False

theorem PayloadKind.not_setToNull_decoded (kind : PayloadKind) {text : String} {a : kind.Answer}
    (h : decode kind.Answer text = .ok a) : ¬ kind.SetToNull a := by
  cases kind with
  | node => exact PayloadType.not_setToNull_decoded (.one .node) h
  | nodes => exact PayloadType.not_setToNull_decoded (.many .node) h
  | _ => exact id

/-- A payload that can be inspected is decoded to a value that can be decoded again from what is shown, and
inspecting what is shown changes nothing. -/
theorem inspect_idempotent (kind : PayloadKind) {payload out : String} (h : inspect kind payload = .ok out) :
    ∃ a : kind.Answer, decode kind.Answer payload = .ok a ∧ encodePretty a = out ∧
      (Wire.toJson a).depth ≤ Scan.depthLimit ∧ ¬ kind.SetToNull a ∧
      ((Wire.toJson a).FloatFree →
        decode kind.Answer out = .ok a ∧ inspect kind out = .ok out ∧
          inspect kind (out ++ "\n") = .ok out) := by
  obtain ⟨a, ha, rfl⟩ := inspect_eq_ok.1 h
  have hdepth : (Wire.toJson a).depth ≤ Scan.depthLimit :=
    kind.of_payloadType (P := fun α _ => ∀ a : α, decode α payload = .ok a →
      (Wire.toJson a).depth ≤ Scan.depthLimit) (fun T v hv => (T.decoded hv).1) a ha
  refine ⟨a, ha, rfl, hdepth, kind.not_setToNull_decoded ha, fun hfloat => ?_⟩
  have hagain : decode kind.Answer (encodePretty a) = .ok a :=
    kind.of_payloadType (P := fun α _ => ∀ a : α, decode α payload = .ok a → (Wire.toJson a).FloatFree →
      decode α (encodePretty a) = .ok a) (fun T v hv hv' => T.decode_encodePretty_decoded hv hv') a ha hfloat
  have hnewline : decode kind.Answer (encodePretty a ++ "\n") = .ok a := by
    have hbracketed : (Wire.shape kind.Answer).Bracketed :=
      kind.of_payloadType (P := fun α _ => (Wire.shape α).Bracketed) PayloadType.bracketed
    have happend := (decodeBytes_append hbracketed hagain (Utf8.encode "\n".toList)).1
    rw [← Utf8.encode_append, ← String.toList_append] at happend
    refine happend (blank_encode.2 fun c hc => ?_)
    have hc : c = '\n' := by simpa using hc
    exact .inr (.inr (.inl hc))
  exact ⟨hagain, inspect_eq_ok.2 ⟨a, hagain, rfl⟩, inspect_eq_ok.2 ⟨a, hnewline, rfl⟩⟩

/-- A bare list with an array in the place of a dimension is shown under its key, and what is shown stays. -/
theorem inspect_idempotent_commonDimensions :
    let shown := "\x7b\n  \"dimensions\": [\n    \x7b\n      \"name\": \"a\",\n" ++
        "      \"node_name\": null,\n      \"node_display_name\": \"b\",\n" ++
        "      \"properties\": null,\n      \"type\": null,\n      \"path\": null,\n" ++
        "      \"filter_only\": false\n    \x7d\n  ]\n\x7d"
    inspect .commonDimensions "[[\"a\",null,\"b\"]]" = .ok shown ∧
      inspect .commonDimensions shown = .ok shown ∧
      inspect .commonDimensions (shown ++ "\n") = .ok shown := by
  intro shown
  let answer : Response.CommonDimensions :=
    { dimensions := some [{ name := some "a", nodeDisplayName := some "b" }] }
  let doc : Json := .array [.array [.string "a", .null, .string "b"]]
  have hparse : parse "[[\"a\",null,\"b\"]]" = .ok doc := by
    rw [show "[[\"a\",null,\"b\"]]" = doc.compact by decide +kernel]
    exact parse_compact (by repeat' constructor) (by decide)
  have hdecode : decode PayloadKind.commonDimensions.Answer "[[\"a\",null,\"b\"]]" = .ok answer :=
    (decode_eq_ok hparse).2 rfl
  have hinspect : inspect .commonDimensions "[[\"a\",null,\"b\"]]" = .ok shown :=
    inspect_eq_ok.2 ⟨answer, hdecode, by decide +kernel⟩
  obtain ⟨a, ha, -, -, -, hagain⟩ := inspect_idempotent .commonDimensions hinspect
  rw [hdecode] at ha
  cases ha
  exact ⟨hinspect, (hagain (by repeat' constructor)).2⟩

end MetricCatalog

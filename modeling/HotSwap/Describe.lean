import HotSwap.Flavor
import HotSwap.Host.Program
import HotSwap.Text.Diagnostic
/-!
# Diagnostics

What each thing shows of itself. Identities are not shown.
-/

namespace HotSwap

open Text

def sourceText : String := "SourceId(_)"

mutual

def Json.diagnostic : Json → String
  | .null => "Null"
  | .bool b => tagged "Bool" (toString b)
  | .number n => tagged "Number" n.text
  | .string s => tagged "String" (quoteString s)
  | .array items => "Array " ++ sequence (Json.diagnosticItems items)
  | .object members => "Object " ++ mapping (Json.diagnosticMembers members)

def Json.diagnosticItems : List Json → List String
  | [] => []
  | j :: rest => j.diagnostic :: Json.diagnosticItems rest

def Json.diagnosticMembers : List (String × Json) → List (String × String)
  | [] => []
  | (k, j) :: rest => (quoteString k, j.diagnostic) :: Json.diagnosticMembers rest

end

mutual

def View.diagnostic : View → String
  | .empty => "Empty"
  | .text s => tagged "Text" (quoteString s)
  | .fragment children => tagged "Fragment" (sequence (View.diagnosticAll children))
  | .dynamic _ => tagged "Dynamic" sourceText

def View.diagnosticAll : List View → List String
  | [] => []
  | v :: rest => v.diagnostic :: View.diagnosticAll rest

end

def Freshness.name : Freshness → String
  | .clean => "Clean"
  | .maybeDirty => "MaybeDirty"
  | .dirty => "Dirty"

def HotEvent.diagnostic : HotEvent → String
  | .accepted => "Accepted"
  | .invalidated => "Invalidated"
  | .declined => "Declined"
  | .reloaded => "Reloaded"
  | .disposed => "Disposed"

def Shape.diagnostic : Shape → String
  | .acceptWithModule => "HotHandle::Esm"
  | .disposeThenAccept => "HotHandle::Standard"

def Memo.diagnostic (m : Memo) : String :=
  record "Memo" [("id", sourceText), ("state", m.freshness.name),
    ("has_value", toString m.value.isSome)]

def Effect.diagnostic (e : Effect) : String :=
  record "Effect" [("subscriber_id", "SubscriberId(_)"), ("run_count", toString e.runs),
    ("disposed", toString e.disposed)]

def Context.diagnostic (c : Context) : String :=
  record "ContextHandle" [("id", "ContextId(_)"), ("default_value", c.fallback.diagnostic)]

def providerDiagnostic : String := record "Provider" [("context_id", "ContextId(_)")]

def signalDiagnostic (v : Json) : String :=
  record "Signal" [("id", sourceText), ("value", v.diagnostic)]

def gateDiagnostic (warned : Bool) : String := record "DeclineGate" [("warned", toString warned)]

def Host.diagnostic (h : Host) : String :=
  record "MemoryHot" [("id", quoteString h.id), ("has_data", toString h.data.isSome),
    ("events", sequence (h.events.map HotEvent.diagnostic))]

def Registration.diagnostic (r : Registration) : String :=
  record "ComponentRegistration" [("id", quoteString r.id),
    ("signature", optionalString r.signature),
    ("dependencies", option (r.dependencies.map fun d => toString d.size)),
    ("location", optionalString r.location)]

namespace Machine

def describeComponent (k : ComponentId) : Machine String := do
  return record "Component" [("name", quoteString (← componentName k)),
    ("dev", toString (← isDev k))]

def describeProxy (p : Proxy) : Machine String := do
  let current ← match ← cellContent p.cell with
    | some k => some <$> describeComponent k
    | none => pure none
  return record "ComponentProxy" [("id", quoteString p.id),
    ("location", optionalString p.location), ("current", option current)]

def describeContext (r : ContextRegistration) : Machine String := do
  return record "ContextRegistration" [("id", quoteString r.id),
    ("context", (← context r.context).diagnostic)]

def describeRegistry (r : Registry) : Machine String := do
  let contexts ← r.contexts.entries.mapM fun e => return (quoteString e.1, ← describeContext e.2)
  return record "Registry" [
    ("components",
      mapping (r.components.entries.map fun e => (quoteString e.1, e.2.diagnostic))),
    ("contexts", mapping contexts)]

def describeBinding : Binding → Machine String
  | .undefined => return "Undefined"
  | .null => return "Null"
  | .bool b => return tagged "Bool" (toString b)
  | .number bits => return tagged "Number" (Decimal.Layout.diagnostic.text bits)
  | .text s => return tagged "Str" (quoteString s)
  | .component k => return tagged "Component" (quoteString (← componentName k))
  | .object _ => return tagged "Object" "_"

end Machine

end HotSwap

import HotSwap.Config.Json
import HotSwap.Proofs.Json.Records
import HotSwap.Report.Json
import HotSwap.Snapshot.Json
/-!
# Reading back what was written

Snapshots, configurations and reports are spelled by the text that is written for them, whatever
their strings hold. A table comes back with its entries in the order in which they were listed.
-/

namespace HotSwap

open Json

namespace ComponentEntry

/-- These members of an entry take its slots from `s` to `t`. -/
abbrev Takes (fields : List (List Char)) (s t : Slots) : Prop :=
  Json.Fills (fun s => Reader.string >>= fun key => member key s) fields s t

theorem takes_optionalField {α : Type} {write : α → List Char} (key : String) (value : Option α)
    (put : Option (Option α) → Slots)
    (h : ∀ a ∈ value, Spells (member key (put none)) (':' :: write a) (put (some (some a)))) :
    Takes (optionalField key write value) (put none) (put (value.map some)) := by
  cases value with
  | none => exact .nil _
  | some a => exact .field (h a rfl)

theorem spells_optionalString (s : String) : Spells optionalString (quoted s) (some s) :=
  spells_option (spells_stringAs "a string" s) rfl (by decide)

theorem spells_optionalStrings (ss : List String) : Spells optionalStrings (strings ss) (some ss) :=
  spells_option (spells_strings ss) rfl (by decide)

theorem finish_slots (e : ComponentEntry) :
    finish { id := some e.id
             name := some e.name
             signature := e.signature.map some
             dependencies := e.dependencies.map some
             location := e.location.map some } = pure e := by
  have hjoin {α : Type} (o : Option α) : (o.map some).join = o := by cases o <;> rfl
  simp only [finish, Reader.required, pure_bind, hjoin]

theorem spells_toJson (e : ComponentEntry) : Spells reader e.toJson e := by
  have hid := spells_once "id" (spells_stringAs "a string" e.id)
  have hname := spells_once "name" (spells_stringAs "a string" e.name)
  have hsignature := takes_optionalField "signature" e.signature
    (fun o => { id := some e.id, name := some e.name, signature := o })
    fun s _ => (spells_once "signature" (spells_optionalString s)).map _
  have hdependencies := takes_optionalField "dependencies" e.dependencies
    (fun o => { id := some e.id
                name := some e.name
                signature := e.signature.map some
                dependencies := o })
    fun ss _ => (spells_once "dependencies" (spells_optionalStrings ss)).map _
  have hlocation := takes_optionalField "location" e.location
    (fun o => { id := some e.id
                name := some e.name
                signature := e.signature.map some
                dependencies := e.dependencies.map some
                location := o })
    fun s _ => (spells_once "location" (spells_optionalString s)).map _
  exact spells_record "ComponentEntry" (.more (hid.map _) <| .more (hname.map _) <|
    (hsignature.append hdependencies).append hlocation) (finish_slots e)

end ComponentEntry

theorem Snapshot.spells_toJson (s : Snapshot) : Spells reader s.toJson s := by
  have hentries : Spells entries (bracketed (s.components.map ComponentEntry.toJson))
      s.components :=
    spells_list (fun e _ => e.spells_toJson) fun _ _ => starts_braced _
  have hcomponents := spells_once "components" hentries
  have hcontexts := spells_once "contexts" (spells_strings s.contexts)
  exact spells_record "RegistrySnapshot" (.more (hcomponents.map _) (.field (hcontexts.map _))) rfl

theorem Flavor.spells_toJson (f : Flavor) : Spells reader f.toJson f :=
  spells_variant (by cases f <;> decide)

theorem Strategy.spells_toJson (s : Strategy) : Spells reader s.toJson s :=
  spells_variant (by cases s <;> decide)

theorem DeclineRule.spells_toJson (r : DeclineRule) : Spells reader r.toJson r := by
  have hgate := spells_once "gate" r.gate.spells_toJson
  have hinline := spells_once "inline" r.inlined.spells_toJson
  exact spells_record "DeclineRule" (.more (hgate.map _) (.field (hinline.map _))) rfl

namespace DeclineTable

theorem spells_member {t : DeclineTable} {f : Flavor} {r : DeclineRule}
    (h : f ∉ OrderedMap.keys t) :
    ∃ u : DeclineTable, u.entries = t.entries ++ [(f, r)] ∧
      Spells (member t) (field f.name r.toJson) u :=
  ⟨t.insert f r, t.entries_insert_of_notMem r h,
    f.spells_toJson.bind (spells_colon.bind (r.spells_toJson.map fun r => t.insert f r))⟩

theorem fills_entries (es : List (Flavor × DeclineRule)) (t u : DeclineTable)
    (hu : u.entries = t.entries ++ es) :
    Json.Fills member (es.map fun e => field e.1.name e.2.toJson) t u := by
  induction es generalizing t with
  | nil =>
    obtain rfl : u = t := OrderedMap.ext (by simpa using hu)
    exact .nil u
  | cons e es ih =>
    have hnodup : ((t.entries ++ e :: es).map Prod.fst).Nodup := hu ▸ u.nodup
    have hnew : e.1 ∉ OrderedMap.keys t := fun hm => by
      rw [List.map_append, List.nodup_append] at hnodup
      exact hnodup.2.2 e.1 hm e.1 List.mem_cons_self rfl
    obtain ⟨v, hv, hspells⟩ := spells_member (r := e.2) hnew
    exact .cons hspells (ih v (by rw [hu, hv, List.append_assoc]; rfl))

theorem spells_toJson (t : DeclineTable) : Spells reader (toJson t) t :=
  spells_object "a map" (fills_entries t.entries .empty t rfl)

end DeclineTable

theorem Config.spells_toJson (c : Config) : Spells reader c.toJson c := by
  have htransport := spells_once "transport" c.transport.spells_toJson
  have hdevMode := spells_once "dev_mode" (spells_bool c.devMode)
  have hdecline := spells_once "decline" (DeclineTable.spells_toJson c.decline)
  exact spells_record "RefreshConfig"
    (.more (htransport.map _) (.more (hdevMode.map _) (.field (hdecline.map _)))) rfl

theorem PatchReport.spells_toJson (r : PatchReport) : Spells reader r.toJson r := by
  have ids (key : String) (ss : List String) :
      Spells (Reader.once key none ids) (':' :: strings ss) ss :=
    spells_once key (spells_strings ss)
  have members : Json.Fills (fun s => Reader.string >>= fun key => member key s)
      [field "swapped" (strings r.swapped),
        field "unchanged" (strings r.unchanged),
        field "added" (strings r.added),
        field "removed" (strings r.removed),
        field "contexts_patched" (strings r.contextsPatched),
        field "contexts_added" (strings r.contextsAdded),
        field "contexts_removed" (strings r.contextsRemoved)] {}
      { swapped := some r.swapped
        unchanged := some r.unchanged
        added := some r.added
        removed := some r.removed
        contextsPatched := some r.contextsPatched
        contextsAdded := some r.contextsAdded
        contextsRemoved := some r.contextsRemoved } :=
    .more ((ids _ r.swapped).map _) <| .more ((ids _ r.unchanged).map _) <|
      .more ((ids _ r.added).map _) <| .more ((ids _ r.removed).map _) <|
      .more ((ids _ r.contextsPatched).map _) <| .more ((ids _ r.contextsAdded).map _) <|
      .field ((ids _ r.contextsRemoved).map _)
  exact spells_record "PatchReport" members rfl

/-- The text written for a snapshot, a report or a configuration is read as just that. -/
theorem json_round_trip (s : Snapshot) (r : PatchReport) (c : Config) :
    Snapshot.ofJson s.jsonText = .ok s ∧
      Reader.parse PatchReport.reader (String.ofList r.toJson) = .ok r ∧
        Config.ofJson (String.ofList c.toJson) = .ok c := by
  refine ⟨?_, parse_of_spells r.spells_toJson, ?_⟩
  · rw [Snapshot.ofJson, Snapshot.jsonText, parse_of_spells s.spells_toJson]
    rfl
  · rw [Config.ofJson, parse_of_spells c.spells_toJson]
    rfl

end HotSwap

import HotSwap.Proofs.MessagePack.Coding
import HotSwap.Snapshot.MessagePack
/-!
# Packed snapshots

A snapshot whose strings and lists fit their headers is spelled by the bytes that are written for
it.
-/

namespace HotSwap

open MessagePack

namespace ComponentEntry

structure Fits (e : ComponentEntry) : Prop where
  id : MessagePack.Fits e.id
  name : MessagePack.Fits e.name
  signature : ∀ s ∈ e.signature, MessagePack.Fits s
  dependencies : ∀ ss ∈ e.dependencies, FitsAll ss
  location : ∀ s ∈ e.location, MessagePack.Fits s

theorem fits_packedNames : ∀ k ∈ packedNames, MessagePack.Fits k := by decide

variable {e : ComponentEntry} {bs : List UInt8} {s t : Packed}

abbrev TakesPacked (fields : List (List UInt8)) (s t : Packed) : Prop :=
  Fills packedNames (Decoder.nestingLimit - 3) packedMember fields s t

theorem takesPacked_field {key : String} (hk : key ∈ packedNames)
    (h : Spells (packedMember key s) bs t) : TakesPacked [field key bs] s t :=
  .field (fits_packedNames key hk) hk h

theorem takesPacked_optional {α : Type} {write : α → List UInt8} {value : Option α} (key : String)
    (put : Option (Option α) → Packed) (hk : key ∈ packedNames)
    (h : ∀ a ∈ value, Spells (packedMember key (put none)) (write a) (put (some (some a)))) :
    TakesPacked (packedField key write value) (put none) (put (value.map some)) := by
  cases value with
  | none => exact .nil _
  | some a => exact takesPacked_field hk (h a rfl)

theorem spells_packedString {s : String} (h : MessagePack.Fits s) :
    Spells packedString (string s) (some s) := spells_option (spells_string h) rfl

theorem spells_packedStrings {ss : List String} (h : FitsAll ss) :
    Spells packedStrings (strings ss) (some ss) := spells_option (spells_strings h) rfl

theorem length_packedField_le {α : Type} (key : String) (write : α → List UInt8)
    (value : Option α) : (packedField key write value).length ≤ 1 := by
  cases value <;> simp [packedField]

theorem packedFinish_slots (e : ComponentEntry) :
    packedFinish { id := some e.id
                   name := some e.name
                   signature := e.signature.map some
                   dependencies := e.dependencies.map some
                   location := e.location.map some } = pure e := by
  have hjoin {α : Type} (o : Option α) : (o.map some).join = o := by cases o <;> rfl
  simp only [packedFinish, Decoder.required, pure_bind, hjoin]

theorem spells_toMessagePack (h : e.Fits) : Spells decoder e.toMessagePack e := by
  have hid : TakesPacked [field "id" (string e.id)] {} { id := some e.id } :=
    takesPacked_field (by decide) ((spells_string h.id).map _)
  have hname : TakesPacked [field "name" (string e.name)] { id := some e.id }
      { id := some e.id, name := some e.name } :=
    takesPacked_field (by decide) ((spells_string h.name).map _)
  have hsignature := takesPacked_optional "signature"
    (fun o => { id := some e.id, name := some e.name, signature := o }) (by decide)
    fun s hs => (spells_packedString (h.signature s hs)).map _
  have hdependencies := takesPacked_optional "dependencies"
    (fun o => { id := some e.id
                name := some e.name
                signature := e.signature.map some
                dependencies := o })
    (by decide) fun ss hs => (spells_packedStrings (h.dependencies ss hs)).map _
  have hlocation := takesPacked_optional "location"
    (fun o => { id := some e.id
                name := some e.name
                signature := e.signature.map some
                dependencies := e.dependencies.map some
                location := o })
    (by decide) fun s hs => (spells_packedString (h.location s hs)).map _
  refine spells_record ?_ ((((hid.append hname).append hsignature).append hdependencies).append
    hlocation) (packedFinish_slots e ▸ .pure e)
  have hsig := length_packedField_le "signature" string e.signature
  have hdep := length_packedField_le "dependencies" strings e.dependencies
  have hloc := length_packedField_le "location" string e.location
  simp only [List.length_append, List.length_cons, List.length_nil]
  omega

end ComponentEntry

namespace Snapshot

structure Fits (s : Snapshot) : Prop where
  count : s.components.length < 0x100000000
  components : ∀ e ∈ s.components, e.Fits
  contexts : FitsAll s.contexts

variable {s : Snapshot}

theorem spells_toMessagePack (h : s.Fits) : Spells decoder s.toMessagePack s := by
  have hnames : ∀ k ∈ packedNames, MessagePack.Fits k := by decide
  have hentries : Spells packedEntries (array (s.components.map ComponentEntry.toMessagePack))
      s.components :=
    spells_array h.count fun e he => ComponentEntry.spells_toMessagePack (h.components e he)
  have hcomponents : Fills packedNames (Decoder.nestingLimit - 1) packedMember
      [field "components" (array (s.components.map ComponentEntry.toMessagePack))] {}
      { components := some s.components } :=
    .field (hnames _ (by decide)) (by decide) (hentries.map _)
  have hcontexts : Fills packedNames (Decoder.nestingLimit - 1) packedMember
      [field "contexts" (strings s.contexts)] { components := some s.components }
      { components := some s.components, contexts := some s.contexts } :=
    .field (hnames _ (by decide)) (by decide) ((spells_strings h.contexts).map _)
  exact spells_record (by simp) (hcomponents.append hcontexts) (.pure s)

/-- What is written for a snapshot is read back, whatever bytes follow it. -/
theorem ofMessagePack_toMessagePack_append (h : s.Fits) (t : List UInt8) :
    ofMessagePack (s.toMessagePack ++ t) = .ok s := by
  have hread : decoder (s.toMessagePack ++ t) = some (s, t) := (spells_toMessagePack h).whole t
  rw [ofMessagePack, hread]

def counters : Snapshot where
  components := [
    { id := "Counter", name := "Zähler", signature := some "0123456789abcdef0123456789abcdef"
      dependencies := some ["LIMIT", ""], location := some "src/Counter.tsx:1:1" },
    { id := "Plain", name := "Plain" }]
  contexts := ["Theme"]

theorem fits_counters : counters.Fits := by
  refine ⟨by decide, ?_, by decide +kernel⟩
  simp only [counters, List.forall_mem_cons]
  refine ⟨⟨?_, ?_, ?_, ?_, ?_⟩, ⟨?_, ?_, ?_, ?_, ?_⟩, nofun⟩ <;> decide +kernel

theorem round_trip_counters : counters.Fits ∧
    ofMessagePack (counters.toMessagePack ++ [0xc1, 0x00]) = .ok counters :=
  ⟨fits_counters, ofMessagePack_toMessagePack_append fits_counters [0xc1, 0x00]⟩

end Snapshot

end HotSwap

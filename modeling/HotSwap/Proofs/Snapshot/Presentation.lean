import HotSwap.Proofs.Snapshot.Entry
/-!
# Snapshots however they are presented

A text presents a snapshot if its objects have the members that are known, each once and in any
order, among any others. It is read as that snapshot, and where a known member is repeated the text
is refused.
-/

namespace HotSwap.Snapshot

open Json

variable {s : Snapshot} {b v cs : List Char} {ms : List (String × List Char)}
  {m : String × List Char}

def fields : List String := ["components", "contexts"]

structure Members (s : Snapshot) (ms : List (String × List Char)) : Prop where
  components : Holds ms "components" (ArrayOf ComponentEntry.Presents s.components)
  contexts : Holds ms "contexts" (ArrayOf Quotes s.contexts)
  others : ∀ m ∈ ms, m.1 ∉ fields → Wellformed m.2

def TextOf (ms : List (String × List Char)) (text : String) : Prop :=
  ∃ b cs b', Blanks b ∧ Object ms cs ∧ Blanks b' ∧ text.toList = b ++ (cs ++ b')

def Presents (s : Snapshot) (text : String) : Prop := ∃ ms, TextOf ms text ∧ s.Members ms

def RepeatedWithin (v : List Char) : Prop :=
  ∃ ts, InBrackets ts v ∧ (∀ t ∈ ts, Wellformed t) ∧
    ∃ t ∈ ts, ∃ ms, Object ms t ∧ (∀ m ∈ ms, Wellformed m.2) ∧ Repeated ComponentEntry.fields ms

/-- Somewhere in the text a known member comes twice: in the snapshot's own object, or in that of an
entry. -/
def Repeats (text : String) : Prop :=
  ∃ ms, TextOf ms text ∧ (∀ m ∈ ms, Wellformed m.2) ∧
    (Repeated fields ms ∨ ∃ m ∈ ms, m.1 = "components" ∧ RepeatedWithin m.2)

def step (s : Slots) (m : String × List Char) : Option Slots :=
  match m.1 with
  | "components" => fill s.components entries m.2 fun a => { s with components := some a }
  | "contexts" => fill s.contexts names m.2 fun a => { s with contexts := some a }
  | _ => some s

theorem entries_settles (hv : Wellformed v) : Settles entries v :=
  list_settles (fun _ => ComponentEntry.reader_settles) hv

theorem notMem_fields {key : String} (hcomponents : key ≠ "components")
    (hcontexts : key ≠ "contexts") : key ∉ fields := by
  simp [fields, hcomponents, hcontexts]

theorem step_of_notMem (hm : m.1 ∉ fields) (s : Slots) : step s m = some s := by
  unfold step
  split
  case h_3 => rfl
  all_goals simp_all [fields]

theorem reads_step (hv : Wellformed m.2) (hb : Blanks b) (s : Slots) :
    Reads (member m.1 s) (':' :: (b ++ m.2)) (step s m) := by
  obtain ⟨key, v⟩ := m
  unfold member
  dsimp only
  split
  · exact reads_fill (entries_settles hv) s.components hb _
  · exact reads_fill (ComponentEntry.strings_settles hv) s.contexts hb _
  · rw [step_of_notMem (m := (key, v)) (notMem_fields ‹_› ‹_›)]
    exact (reads_ignored hv hb).map fun _ => s

theorem step_eq_some {s t : Slots} (h : step s m = some t) :
    (m.1 = "components" ∧ ∃ a, t = { s with components := some a }) ∨
    (m.1 = "contexts" ∧ ∃ a, t = { s with contexts := some a }) ∨ (m.1 ∉ fields ∧ t = s) := by
  unfold step at h
  split at h
  case h_3 => simp_all [fields]
  all_goals
    obtain ⟨-, a, -, rfl⟩ := fill_eq_some h
    simp [*]

theorem step_keeps {s t : Slots} (h : step s m = some t) :
    (m.1 ≠ "components" → t.components = s.components) ∧
    (m.1 ≠ "contexts" → t.contexts = s.contexts) := by
  obtain ⟨hm, a, rfl⟩ | ⟨hm, a, rfl⟩ | ⟨-, rfl⟩ := step_eq_some h
  all_goals simp [*]

theorem slot_components : Slot step "components" Slots.components (outcome entries) :=
  .of_fill (fun _ _ => rfl) (fun _ _ => rfl) fun _ _ _ hm h => (step_keeps h).1 hm

theorem slot_contexts : Slot step "contexts" Slots.contexts (outcome names) :=
  .of_fill (fun _ _ => rfl) (fun _ _ => rfl) fun _ _ _ hm h => (step_keeps h).2 hm

def Slots.free (s : Slots) : String → Prop
  | "components" => s.components = none
  | "contexts" => s.contexts = none
  | _ => True

theorem free_empty (key : String) : Slots.free {} key := by
  unfold Slots.free
  split <;> trivial

theorem free_step {s t : Slots} (h : step s m = some t) {key : String}
    (hk : key ≠ m.1 ∨ key ∉ fields) (hfree : s.free key) : t.free key := by
  obtain ⟨hcomponents, hcontexts⟩ := step_keeps h
  have hother (hkey : key ∈ fields) : m.1 ≠ key := (hk.resolve_right (not_not_intro hkey)).symm
  unfold Slots.free at hfree ⊢
  split
  case h_1 => exact (hcomponents (hother (by decide))).trans hfree
  case h_2 => exact (hcontexts (hother (by decide))).trans hfree
  case h_3 => trivial

theorem outcome_entries {es : List ComponentEntry} (h : ArrayOf ComponentEntry.Presents es v) :
    outcome entries v = some es :=
  (h.reads (fun _ _ => ComponentEntry.Presents.reads)
    fun _ _ => ComponentEntry.Presents.wellformed).outcome_eq

theorem outcome_names {ss : List String} (h : ArrayOf Quotes ss v) : outcome names v = some ss :=
  (ComponentEntry.reads_strings h).outcome_eq

theorem Members.takes (h : s.Members ms) (hm : m ∈ ms) : Admits step fields Slots.free m := by
  intro u hfree
  obtain ⟨t, ht⟩ : ∃ t, step u m = some t := by
    obtain ⟨key, v⟩ := m
    dsimp only at hfree
    unfold Slots.free at hfree
    unfold step
    dsimp only
    split
    · exact ⟨_, hfree ▸ fill_takes (outcome_entries (h.components.of_mem hm rfl)) _⟩
    · exact ⟨_, hfree ▸ fill_takes (outcome_names (h.contexts.of_mem hm rfl)) _⟩
    · exact ⟨u, rfl⟩
  exact ⟨t, ht, fun k hk => free_step ht hk⟩

theorem Members.wellformed (h : s.Members ms) (hm : m ∈ ms) : Wellformed m.2 := by
  by_cases hk : m.1 ∈ fields
  · simp only [fields, List.mem_cons, List.not_mem_nil, or_false] at hk
    obtain hk | hk := hk
    · exact (h.components.of_mem hm hk).wellformed fun _ _ => ComponentEntry.Presents.wellformed
    · exact (h.contexts.of_mem hm hk).wellformed fun _ _ => Quotes.wellformed
  · exact h.others m hm hk

theorem Members.length_le (h : s.Members ms) : ∀ k ∈ fields, (under k ms).length ≤ 1 := by
  intro k hk
  simp only [fields, List.mem_cons, List.not_mem_nil, or_false] at hk
  obtain rfl | rfl := hk
  · exact h.components.length_le
  · exact h.contexts.length_le

def taken (s : Slots) : Option Snapshot :=
  s.components.bind fun components => s.contexts.map fun contexts => { components, contexts }

theorem leaves_finish (s : Slots) (rest : List Char) : Leaves rest (taken s) (finish s rest) := by
  obtain ⟨_ | components, _ | contexts⟩ := s
  · exact ⟨_, rfl⟩
  · exact ⟨_, rfl⟩
  · exact ⟨_, rfl⟩
  · rfl

theorem Members.taken_eq (h : s.Members ms) : (ms.foldlM step {}).bind taken = some s := by
  obtain ⟨t, ht⟩ := foldlM_takes (fun m hm => h.takes hm) h.length_le fun m _ => free_empty m.1
  have hcomponents := slot_components.eq_some ht h.components fun _ => outcome_entries
  have hcontexts := slot_contexts.eq_some ht h.contexts fun _ => outcome_names
  rw [ht, Option.bind_some, taken, hcomponents, hcontexts]
  rfl

theorem ofJson_textOf {text : String} (h : TextOf ms text) (hms : ∀ m ∈ ms, Wellformed m.2) :
    match (ms.foldlM step {}).bind taken with
    | some s => ofJson text = .ok s
    | none => ∃ f, ofJson text = .error (.configuration f) := by
  obtain ⟨b, cs, b', hb, hcs, hb', htext⟩ := h
  have hread : Reads reader cs ((ms.foldlM step {}).bind taken) :=
    reads_record (fun m hm s _ hb => reads_step (hms m hm) hb s) leaves_finish hcs
  have hends : Ends b' := by simpa using ends_blanks hb' (show Ends [] by simp [Ends])
  have hout := hread b b' hb hends
  rw [← htext] at hout
  generalize (ms.foldlM step {}).bind taken = o at hout
  cases o with
  | some s =>
    have hok : reader text.toList = .ok (s, b') := hout
    simp [ofJson, Reader.parse, hok, skipBlanks_eq_nil hb', Except.mapError]
  | none =>
    obtain ⟨f, hf⟩ := hout
    exact ⟨f, by simp [ofJson, Reader.parse, hf, Except.mapError]⟩

theorem foldlM_repeated (h : Repeated fields ms) : ms.foldlM step {} = none := by
  obtain ⟨k, hk, htwice⟩ := h
  simp only [fields, List.mem_cons, List.not_mem_nil, or_false] at hk
  obtain rfl | rfl := hk
  · exact slot_components.refuses htwice
  · exact slot_contexts.refuses htwice

theorem outcome_repeatedWithin (h : RepeatedWithin v) : outcome entries v = none := by
  obtain ⟨ts, hv, hts, t, ht, ms, hobject, hms, htwice⟩ := h
  have hreads : List.Forall₂ (Reads ComponentEntry.reader) ts
      (ts.map (outcome ComponentEntry.reader)) := by
    rw [List.forall₂_map_right_iff, List.forall₂_same]
    exact fun u hu => (ComponentEntry.reader_settles (hts u hu)).reads
  have hnone : outcome ComponentEntry.reader t = none := by
    rw [(ComponentEntry.reads_object hobject hms).outcome_eq,
      ComponentEntry.foldlM_repeated htwice]
    rfl
  rw [entries, (reads_list hreads (fun u hu => (hts u hu).starts) hv).outcome_eq]
  exact mapM_id_eq_none (List.mem_map.2 ⟨t, ht, hnone⟩)

/-- However its objects are laid out, a text that presents a snapshot is read as that snapshot, and
a text in which a known member is repeated is refused. -/
theorem presentation_immaterial :
    (∀ (s : Snapshot) (text : String), s.Presents text → ofJson text = .ok s) ∧
      ∀ text, Repeats text → ∃ f, ofJson text = .error (.configuration f) := by
  refine ⟨fun s text h => ?_, fun text h => ?_⟩
  · obtain ⟨ms, htext, hms⟩ := h
    simpa [hms.taken_eq] using ofJson_textOf htext fun m hm => hms.wellformed hm
  · obtain ⟨ms, htext, hms, htwice⟩ := h
    have hnone : ms.foldlM step {} = none := by
      obtain htwice | ⟨m, hm, hk, hwithin⟩ := htwice
      · exact foldlM_repeated htwice
      · exact slot_components.refuses_value hm hk (outcome_repeatedWithin hwithin)
    simpa [hnone] using ofJson_textOf htext hms

def spaced (m : String × List Char) : List Char :=
  '"' :: (m.1.toList ++ '"' :: ' ' :: ':' :: ' ' :: m.2)

def laidOut : Bool → List (String × List Char) → List Char
  | _, [] => ['\n', '}']
  | true, m :: ms => spaced m ++ laidOut false ms
  | false, m :: ms => ' ' :: ',' :: '\n' :: (spaced m ++ laidOut false ms)

def PlainNames (ms : List (String × List Char)) : Prop := ∀ m ∈ ms, Plain m.1.toList

instance (ms : List (String × List Char)) : Decidable (PlainNames ms) :=
  List.decidableBAll (fun m : String × List Char => Plain m.1.toList) ms

theorem listing_laidOut (first : Bool) (ms : List (String × List Char)) :
    Listing '}' first (ms.map spaced) (laidOut first ms) := by
  induction ms generalizing first with
  | nil => exact .nil (b := ['\n']) (by decide)
  | cons m ms ih =>
    cases first with
    | true => exact .first (b := []) .nil (ih false)
    | false => exact .later (show Blanks [' '] by decide) (show Blanks ['\n'] by decide) (ih false)

theorem object_laidOut (h : PlainNames ms) : Object ms ('{' :: laidOut true ms) := by
  refine ⟨ms.map spaced, ?_, _, listing_laidOut true ms, rfl⟩
  rw [List.forall₂_map_right_iff, List.forall₂_same]
  intro m hm
  have hblank : Blanks [' '] := by decide
  exact ⟨m.1.toList, spelled_plain (h m hm), .parts hblank hblank⟩

theorem textOf_laidOut (h : PlainNames ms) :
    TextOf ms (String.ofList ('\t' :: ('{' :: laidOut true ms ++ ['\n']))) :=
  ⟨['\t'], _, ['\n'], by decide, object_laidOut h, by decide, String.toList_ofList⟩

theorem quotes_plain {t : String} (h : Plain t.toList) : Quotes t (inQuotes t.toList) :=
  ⟨t.toList, spelled_plain h, rfl⟩

theorem inBrackets_singleton (t : List Char) : InBrackets [t] ('[' :: ' ' :: (t ++ [']'])) :=
  ⟨_, .first (b := [' ']) (by decide) (.nil (b := []) .nil), rfl⟩

def lone : Snapshot := { components := [{ id := "a", name := "A" }], contexts := ["t"] }

def escapedId : List Char := inQuotes ['\\', 'u', '0', '0', '6', '1']

theorem quotes_escapedId : Quotes "a" escapedId :=
  ⟨_, .code (n := 0x61) (.digits (w := 0) (x := 0) (y := 6) (z := 1) (by decide) (by decide)
    (by decide) (by decide)) (by simp [IsHigh]) (by simp [IsLow]) .nil, rfl⟩

/-- The name comes before the id, and what is absent is `null` or left out. -/
def entryMembers : List (String × List Char) :=
  [("name", inQuotes "A".toList), ("signature", ['n', 'u', 'l', 'l']), ("id", escapedId)]

/-- The name stands where the id should, so that it comes twice. -/
def doubledMembers : List (String × List Char) :=
  [("name", inQuotes "A".toList), ("id", escapedId), ("name", escapedId)]

/-- A value under a key that is not known, with a member that elsewhere would be. -/
def extraMembers : List (String × List Char) :=
  [("components", '[' :: ' ' :: ('-' :: ['1', '.', '5'] ++ [']']))]

def snapshotMembers (entry : List (String × List Char)) : List (String × List Char) :=
  [("extra", '{' :: laidOut true extraMembers),
    ("contexts", '[' :: ' ' :: (inQuotes "t".toList ++ [']'])),
    ("components", '[' :: ' ' :: ('{' :: laidOut true entry ++ [']']))]

def snapshotText (entry : List (String × List Char)) : String :=
  String.ofList ('\t' :: ('{' :: laidOut true (snapshotMembers entry) ++ ['\n']))

theorem wellformed_extra : Wellformed ('{' :: laidOut true extraMembers) := by
  have hint : Integral ['1'] := ⟨by decide, by decide⟩
  have hfrac : Fraction ['.', '5'] := .some (by decide)
  have hnumber : Wellformed ('-' :: ['1', '.', '5']) := .negative (.parts hint hfrac .none)
  have hobject : Object extraMembers ('{' :: laidOut true extraMembers) :=
    object_laidOut (by decide)
  refine hobject.wellformed fun m hm => ?_
  obtain rfl := List.mem_singleton.1 hm
  exact .array (by simpa using hnumber) (inBrackets_singleton _)

theorem entry_presents :
    ComponentEntry.Presents { id := "a", name := "A" } ('{' :: laidOut true entryMembers) := by
  refine ⟨entryMembers, object_laidOut (by decide), ?_⟩
  exact {
    id := ⟨_, rfl, quotes_escapedId⟩
    name := ⟨_, rfl, quotes_plain (by decide)⟩
    signature := .inr ⟨_, rfl, rfl⟩
    dependencies := .inl rfl
    location := .inl rfl
    others := by simp [entryMembers, ComponentEntry.fields] }

theorem lone_presents : lone.Presents (snapshotText entryMembers) := by
  refine ⟨snapshotMembers entryMembers, textOf_laidOut (by decide), ?_⟩
  have hcontexts : ArrayOf Quotes ["t"] ('[' :: ' ' :: (inQuotes "t".toList ++ [']'])) :=
    ⟨_, .cons (quotes_plain (by decide)) .nil, inBrackets_singleton _⟩
  exact {
    components := ⟨_, rfl, _, .cons entry_presents .nil, inBrackets_singleton _⟩
    contexts := ⟨_, rfl, hcontexts⟩
    others := by simp [snapshotMembers, fields, wellformed_extra] }

theorem doubled_repeats : Repeats (snapshotText doubledMembers) := by
  have hname : Wellformed (inQuotes ['A']) := (quotes_plain (t := "A") (by decide)).wellformed
  have hid : Wellformed escapedId := quotes_escapedId.wellformed
  have hmembers : ∀ m ∈ doubledMembers, Wellformed m.2 := by simp [doubledMembers, hname, hid]
  have hobject : Object doubledMembers ('{' :: laidOut true doubledMembers) :=
    object_laidOut (by decide)
  have hentry := hobject.wellformed hmembers
  have hcontext : Wellformed (inQuotes "t".toList) :=
    (quotes_plain (t := "t") (by decide)).wellformed
  refine ⟨snapshotMembers doubledMembers, textOf_laidOut (by decide), fun m hm => ?_,
    .inr ⟨_, .tail _ (.tail _ (.head _)), rfl, ?_⟩⟩
  · obtain _ | ⟨_, _ | ⟨_, _ | ⟨_, hm⟩⟩⟩ := hm
    · exact wellformed_extra
    · exact .array (by simpa using hcontext) (inBrackets_singleton _)
    · exact .array (by simpa using hentry) (inBrackets_singleton _)
    · cases hm
  · exact ⟨_, inBrackets_singleton _, by simpa using hentry, _, List.mem_singleton_self _,
      doubledMembers, hobject, hmembers, "name", by decide, by decide⟩

theorem lone_read_doubled_refused : lone.Presents (snapshotText entryMembers) ∧
    ofJson (snapshotText entryMembers) = .ok lone ∧
    Repeats (snapshotText doubledMembers) ∧
    ∃ f, ofJson (snapshotText doubledMembers) = .error (.configuration f) :=
  ⟨lone_presents, presentation_immaterial.1 _ _ lone_presents, doubled_repeats,
    presentation_immaterial.2 _ doubled_repeats⟩

end HotSwap.Snapshot

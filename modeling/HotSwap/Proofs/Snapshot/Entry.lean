import HotSwap.Proofs.Json.Slots
import HotSwap.Snapshot.Json
/-!
# Entries however they are presented

An entry is presented by an object whose known members come each once and in any order, among any
others. What the members make of empty slots is the entry, and a known member that is repeated makes
nothing of them.
-/

namespace HotSwap

open Json

variable {b v cs : List Char} {ms : List (String × List Char)} {m : String × List Char}

namespace ComponentEntry

variable {e : ComponentEntry}

def fields : List String := ["id", "name", "signature", "dependencies", "location"]

structure Members (e : ComponentEntry) (ms : List (String × List Char)) : Prop where
  id : Holds ms "id" (Quotes e.id)
  name : Holds ms "name" (Quotes e.name)
  signature : HoldsOptional ms "signature" Quotes e.signature
  dependencies : HoldsOptional ms "dependencies" (ArrayOf Quotes) e.dependencies
  location : HoldsOptional ms "location" Quotes e.location
  others : ∀ m ∈ ms, m.1 ∉ fields → Wellformed m.2

def Presents (e : ComponentEntry) (cs : List Char) : Prop := ∃ ms, Object ms cs ∧ e.Members ms

def step (s : Slots) (m : String × List Char) : Option Slots :=
  match m.1 with
  | "id" => fill s.id Reader.string m.2 fun a => { s with id := some a }
  | "name" => fill s.name Reader.string m.2 fun a => { s with name := some a }
  | "signature" => fill s.signature optionalString m.2 fun a => { s with signature := some a }
  | "dependencies" =>
    fill s.dependencies optionalStrings m.2 fun a => { s with dependencies := some a }
  | "location" => fill s.location optionalString m.2 fun a => { s with location := some a }
  | _ => some s

theorem string_settles (hv : Wellformed v) : Settles Reader.string v := stringAs_settles _ hv

theorem strings_settles (hv : Wellformed v) : Settles (Reader.list Reader.string) v :=
  list_settles (fun _ => string_settles) hv

theorem notMem_fields {key : String} (hid : key ≠ "id") (hname : key ≠ "name")
    (hsignature : key ≠ "signature") (hdependencies : key ≠ "dependencies")
    (hlocation : key ≠ "location") : key ∉ fields := by
  simp [fields, hid, hname, hsignature, hdependencies, hlocation]

theorem step_of_notMem (hm : m.1 ∉ fields) (s : Slots) : step s m = some s := by
  unfold step
  split
  case h_6 => rfl
  all_goals simp_all [fields]

theorem reads_step (hv : Wellformed m.2) (hb : Blanks b) (s : Slots) :
    Reads (member m.1 s) (':' :: (b ++ m.2)) (step s m) := by
  have hstring := string_settles hv
  have hoptional : Settles optionalString m.2 := option_settles hv hstring
  have hoptionals : Settles optionalStrings m.2 := option_settles hv (strings_settles hv)
  obtain ⟨key, v⟩ := m
  unfold member
  dsimp only
  split
  · exact reads_fill hstring s.id hb _
  · exact reads_fill hstring s.name hb _
  · exact reads_fill hoptional s.signature hb _
  · exact reads_fill hoptionals s.dependencies hb _
  · exact reads_fill hoptional s.location hb _
  · rw [step_of_notMem (m := (key, v)) (notMem_fields ‹_› ‹_› ‹_› ‹_› ‹_›)]
    exact (reads_ignored hv hb).map fun _ => s

theorem step_eq_some {s t : Slots} (h : step s m = some t) :
    (m.1 = "id" ∧ ∃ a, t = { s with id := some a }) ∨
    (m.1 = "name" ∧ ∃ a, t = { s with name := some a }) ∨
    (m.1 = "signature" ∧ ∃ a, t = { s with signature := some a }) ∨
    (m.1 = "dependencies" ∧ ∃ a, t = { s with dependencies := some a }) ∨
    (m.1 = "location" ∧ ∃ a, t = { s with location := some a }) ∨ (m.1 ∉ fields ∧ t = s) := by
  unfold step at h
  split at h
  case h_6 => simp_all [fields]
  all_goals
    obtain ⟨-, a, -, rfl⟩ := fill_eq_some h
    simp [*]

theorem step_keeps {s t : Slots} (h : step s m = some t) :
    (m.1 ≠ "id" → t.id = s.id) ∧ (m.1 ≠ "name" → t.name = s.name) ∧
    (m.1 ≠ "signature" → t.signature = s.signature) ∧
    (m.1 ≠ "dependencies" → t.dependencies = s.dependencies) ∧
    (m.1 ≠ "location" → t.location = s.location) := by
  obtain ⟨hm, a, rfl⟩ | ⟨hm, a, rfl⟩ | ⟨hm, a, rfl⟩ | ⟨hm, a, rfl⟩ | ⟨hm, a, rfl⟩ | ⟨-, rfl⟩ :=
    step_eq_some h
  all_goals simp [*]

theorem slot_id : Slot step "id" Slots.id (outcome Reader.string) :=
  .of_fill (fun _ _ => rfl) (fun _ _ => rfl) fun _ _ _ hm h => (step_keeps h).1 hm

theorem slot_name : Slot step "name" Slots.name (outcome Reader.string) :=
  .of_fill (fun _ _ => rfl) (fun _ _ => rfl) fun _ _ _ hm h => (step_keeps h).2.1 hm

theorem slot_signature : Slot step "signature" Slots.signature (outcome optionalString) :=
  .of_fill (fun _ _ => rfl) (fun _ _ => rfl) fun _ _ _ hm h => (step_keeps h).2.2.1 hm

theorem slot_dependencies :
    Slot step "dependencies" Slots.dependencies (outcome optionalStrings) :=
  .of_fill (fun _ _ => rfl) (fun _ _ => rfl) fun _ _ _ hm h => (step_keeps h).2.2.2.1 hm

theorem slot_location : Slot step "location" Slots.location (outcome optionalString) :=
  .of_fill (fun _ _ => rfl) (fun _ _ => rfl) fun _ _ _ hm h => (step_keeps h).2.2.2.2 hm

/-- Whether the slot of that name is empty. Members of other names need none. -/
def Slots.free (s : Slots) : String → Prop
  | "id" => s.id = none
  | "name" => s.name = none
  | "signature" => s.signature = none
  | "dependencies" => s.dependencies = none
  | "location" => s.location = none
  | _ => True

theorem free_empty (key : String) : Slots.free {} key := by
  unfold Slots.free
  split <;> trivial

theorem free_step {s t : Slots} (h : step s m = some t) {key : String}
    (hk : key ≠ m.1 ∨ key ∉ fields) (hfree : s.free key) : t.free key := by
  obtain ⟨hid, hname, hsignature, hdependencies, hlocation⟩ := step_keeps h
  have hother (hkey : key ∈ fields) : m.1 ≠ key := (hk.resolve_right (not_not_intro hkey)).symm
  unfold Slots.free at hfree ⊢
  split
  case h_1 => exact (hid (hother (by decide))).trans hfree
  case h_2 => exact (hname (hother (by decide))).trans hfree
  case h_3 => exact (hsignature (hother (by decide))).trans hfree
  case h_4 => exact (hdependencies (hother (by decide))).trans hfree
  case h_5 => exact (hlocation (hother (by decide))).trans hfree
  case h_6 => trivial

def Readable (m : String × List Char) : Prop :=
  match m.1 with
  | "id" | "name" => ∃ a, outcome Reader.string m.2 = some a
  | "signature" | "location" => ∃ a, outcome optionalString m.2 = some a
  | "dependencies" => ∃ a, outcome optionalStrings m.2 = some a
  | _ => True

theorem step_takes (h : Readable m) : Admits step fields Slots.free m := by
  intro s hfree
  obtain ⟨t, ht⟩ : ∃ t, step s m = some t := by
    obtain ⟨key, v⟩ := m
    unfold Readable at h
    dsimp only at h hfree
    split at h
    case h_6 => exact ⟨s, step_of_notMem (notMem_fields ‹_› ‹_› ‹_› ‹_› ‹_›) s⟩
    all_goals
      obtain ⟨a, ha⟩ := h
      dsimp only [Slots.free] at hfree
      dsimp only [step]
      rw [hfree]
      exact ⟨_, fill_takes ha _⟩
  exact ⟨t, ht, fun k hk => free_step ht hk⟩

theorem outcome_quotes {s : String} (h : Quotes s v) : outcome Reader.string v = some s :=
  (reads_quotes h).outcome_eq

theorem reads_strings {ss : List String} (h : ArrayOf Quotes ss v) :
    Reads (Reader.list Reader.string) v (some ss) :=
  h.reads (fun _ _ => reads_quotes) fun _ _ => Quotes.wellformed

theorem outcome_null {α : Type} {r : Reader α} :
    outcome (Reader.option r) ['n', 'u', 'l', 'l'] = some none := reads_option_null.outcome_eq

theorem outcome_optionalString {s : String} (h : Quotes s v) :
    outcome optionalString v = some (some s) := by
  have hv : Reads Reader.string v (some s) := reads_quotes h
  obtain ⟨raw, -, rfl⟩ := h
  exact (reads_option hv rfl (by decide)).outcome_eq

theorem outcome_optionalStrings {ss : List String} (h : ArrayOf Quotes ss v) :
    outcome optionalStrings v = some (some ss) := by
  have hv := reads_strings h
  obtain ⟨ts, -, ds, -, rfl⟩ := h
  exact (reads_option hv rfl (by decide)).outcome_eq

theorem Members.readable (h : e.Members ms) (hm : m ∈ ms) : Readable m := by
  have optional {α : Type} {key : String} {r : Reader α} {writes : α → List Char → Prop}
      {o : Option α} (ho : HoldsOptional ms key writes o) (hk : m.1 = key)
      (hr : ∀ a v, writes a v → outcome (Reader.option r) v = some (some a)) :
      ∃ a, outcome (Reader.option r) m.2 = some a := by
    obtain hnull | ⟨a, ha⟩ := ho.of_mem hm hk
    · exact ⟨none, by rw [hnull, outcome_null]⟩
    · exact ⟨some a, hr a _ ha⟩
  unfold Readable
  split
  case h_1 hk => exact ⟨_, outcome_quotes (h.id.of_mem hm hk)⟩
  case h_2 hk => exact ⟨_, outcome_quotes (h.name.of_mem hm hk)⟩
  case h_3 hk => exact optional h.signature hk fun _ _ => outcome_optionalString
  case h_4 hk => exact optional h.location hk fun _ _ => outcome_optionalString
  case h_5 hk => exact optional h.dependencies hk fun _ _ => outcome_optionalStrings
  case h_6 => trivial

theorem Members.wellformed (h : e.Members ms) (hm : m ∈ ms) : Wellformed m.2 := by
  have optional {α : Type} {key : String} {writes : α → List Char → Prop} {o : Option α}
      (ho : HoldsOptional ms key writes o) (hk : m.1 = key)
      (hw : ∀ a v, writes a v → Wellformed v) : Wellformed m.2 := by
    obtain hnull | ⟨a, ha⟩ := ho.of_mem hm hk
    · exact hnull ▸ .null
    · exact hw a _ ha
  have strings (ss : List String) (v : List Char) (hv : ArrayOf Quotes ss v) : Wellformed v :=
    hv.wellformed fun _ _ => Quotes.wellformed
  by_cases hk : m.1 ∈ fields
  · simp only [fields, List.mem_cons, List.not_mem_nil, or_false] at hk
    obtain hk | hk | hk | hk | hk := hk
    · exact (h.id.of_mem hm hk).wellformed
    · exact (h.name.of_mem hm hk).wellformed
    · exact optional h.signature hk fun _ _ => Quotes.wellformed
    · exact optional h.dependencies hk strings
    · exact optional h.location hk fun _ _ => Quotes.wellformed
  · exact h.others m hm hk

theorem Members.length_le (h : e.Members ms) : ∀ k ∈ fields, (under k ms).length ≤ 1 := by
  intro k hk
  simp only [fields, List.mem_cons, List.not_mem_nil, or_false] at hk
  obtain rfl | rfl | rfl | rfl | rfl := hk
  · exact h.id.length_le
  · exact h.name.length_le
  · exact h.signature.length_le
  · exact h.dependencies.length_le
  · exact h.location.length_le

def taken (s : Slots) : Option ComponentEntry :=
  s.id.bind fun id => s.name.map fun name =>
    { id, name
      signature := s.signature.join
      dependencies := s.dependencies.join
      location := s.location.join }

theorem leaves_finish (s : Slots) (rest : List Char) : Leaves rest (taken s) (finish s rest) := by
  obtain ⟨_ | id, _ | name, signature, dependencies, location⟩ := s
  · exact ⟨_, rfl⟩
  · exact ⟨_, rfl⟩
  · exact ⟨_, rfl⟩
  · rfl

theorem reads_object (hcs : Object ms cs) (hms : ∀ m ∈ ms, Wellformed m.2) :
    Reads reader cs ((ms.foldlM step {}).bind taken) :=
  reads_record (fun m hm s _ hb => reads_step (hms m hm) hb s) leaves_finish hcs

theorem Members.taken_eq (h : e.Members ms) : (ms.foldlM step {}).bind taken = some e := by
  obtain ⟨t, ht⟩ := foldlM_takes (fun m hm => step_takes (h.readable hm)) h.length_le
    fun m _ => free_empty m.1
  have hid := slot_id.eq_some ht h.id fun _ => outcome_quotes
  have hname := slot_name.eq_some ht h.name fun _ => outcome_quotes
  have hsignature := slot_signature.join_eq ht rfl h.signature outcome_null
    fun _ _ => outcome_optionalString
  have hdependencies := slot_dependencies.join_eq ht rfl h.dependencies outcome_null
    fun _ _ => outcome_optionalStrings
  have hlocation := slot_location.join_eq ht rfl h.location outcome_null
    fun _ _ => outcome_optionalString
  rw [ht, Option.bind_some, taken, hid, hname, hsignature, hdependencies, hlocation]
  rfl

theorem Presents.reads (h : e.Presents cs) : Reads reader cs (some e) := by
  obtain ⟨ms, hcs, hms⟩ := h
  rw [← hms.taken_eq]
  exact reads_object hcs fun m hm => hms.wellformed hm

theorem Presents.wellformed (h : e.Presents cs) : Wellformed cs := by
  obtain ⟨ms, hcs, hms⟩ := h
  exact hcs.wellformed fun m hm => hms.wellformed hm

theorem foldlM_repeated (h : Repeated fields ms) : ms.foldlM step {} = none := by
  obtain ⟨k, hk, htwice⟩ := h
  simp only [fields, List.mem_cons, List.not_mem_nil, or_false] at hk
  obtain rfl | rfl | rfl | rfl | rfl := hk
  · exact slot_id.refuses htwice
  · exact slot_name.refuses htwice
  · exact slot_signature.refuses htwice
  · exact slot_dependencies.refuses htwice
  · exact slot_location.refuses htwice

theorem positional_definite : Definite true positional := by
  have hoptional (t : List Char) (ht : Wellformed t) : Settles optionalString t :=
    option_settles ht (string_settles ht)
  have hoptionals (t : List Char) (ht : Wellformed t) : Settles optionalStrings t :=
    option_settles ht (strings_settles ht)
  refine (definite_item (fun _ => string_settles) (.inr ⟨_, rfl⟩)).bind fun _ => ?_
  refine (definite_item (fun _ => string_settles) (.inr ⟨_, rfl⟩)).bind fun _ => ?_
  refine (definite_item hoptional (.inl ⟨_, rfl⟩)).bind fun _ => ?_
  refine (definite_item hoptionals (.inl ⟨_, rfl⟩)).bind fun _ => ?_
  refine (definite_item hoptional (.inl ⟨_, rfl⟩)).bind fun _ => ?_
  exact .pure _

theorem reader_settles (hv : Wellformed v) : Settles reader v :=
  record_settles hv (fun key v s hv => ⟨_, fun _ hb => reads_step (m := (key, v)) hv hb s⟩)
    leaves_finish positional_definite

end ComponentEntry

end HotSwap

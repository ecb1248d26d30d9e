import HotSwap.Proofs.Binding.Number
import HotSwap.Proofs.Edit.Dependency
/-!
# Comparing snapshots of bindings

Two snapshots are unchanged if they have the same keys with like bindings under each, whatever the
order in which they list them. The comparison counts the keys and looks at those of one side only.
-/

namespace HotSwap

/-- Bindings that are not told apart. A component is like itself only, and so is an object. -/
inductive Binding.Like : Binding → Binding → Prop
  | undefined : Like .undefined .undefined
  | null : Like .null .null
  | bool (b : Bool) : Like (.bool b) (.bool b)
  | number {v w : UInt64} (h : (Float.ofBits v == Float.ofBits w) = true) :
    Like (.number v) (.number w)
  | notANumber {v w : UInt64} (hv : (Float.ofBits v).isNaN = true)
    (hw : (Float.ofBits w).isNaN = true) : Like (.number v) (.number w)
  | text (t : String) : Like (.text t) (.text t)
  | component (c : ComponentId) : Like (.component c) (.component c)
  | object (o : Nat) : Like (.object o) (.object o)

theorem Binding.same_iff_like {a b : Binding} : a.same b = true ↔ a.Like b := by
  constructor
  · intro h
    cases a <;> cases b <;> simp only [same, beq_iff_eq, Bool.false_eq_true] at h
    case undefined.undefined => exact .undefined
    case null.null => exact .null
    case bool.bool => exact h ▸ .bool _
    case number.number =>
      obtain h | ⟨hv, hw⟩ := (sameNumber_iff ..).1 h
      · exact .number h
      · exact .notANumber hv hw
    case text.text => exact h ▸ .text _
    case component.component => exact h ▸ .component _
    case object.object => exact h ▸ .object _
  · rintro (_ | _ | _ | h | ⟨hv, hw⟩ | _ | _ | _)
    case number => exact (sameNumber_iff ..).2 (.inl h)
    case notANumber => exact (sameNumber_iff ..).2 (.inr ⟨hv, hw⟩)
    all_goals simp [same]

theorem OrderedMap.get?_eq_of_perm {κ υ : Type} [DecidableEq κ] {m n : OrderedMap κ υ}
    (h : m.entries.Perm n.entries) (k : κ) : m.get? k = n.get? k := by
  ext v
  rw [← mem_entries, ← mem_entries, h.mem_iff]

theorem OrderedMap.mem_keys_iff {κ υ : Type} [DecidableEq κ] {m : OrderedMap κ υ} {k : κ} :
    k ∈ m.keys ↔ ∃ v, m.get? k = some v := by
  rw [← contains_iff, contains, Option.isSome_iff_exists]

namespace Dependencies

variable {d e : Dependencies}

theorem keys_subset_of_kept (h : kept d e = true) : d.keys ⊆ e.keys := by
  intro k hk
  obtain ⟨b, hb⟩ := OrderedMap.mem_keys_iff.1 hk
  obtain ⟨c, hc, -⟩ := kept_iff.1 h k b hb
  exact OrderedMap.mem_keys_iff.2 ⟨c, hc⟩

theorem size_eq_of_mem_keys (h : ∀ k, k ∈ d.keys ↔ k ∈ e.keys) : d.size = e.size := by
  have hperm := (List.perm_ext_iff_of_nodup d.nodup_keys e.nodup_keys).2 h
  simpa [OrderedMap.keys, OrderedMap.size] using hperm.length_eq

theorem changed_some_eq_false_iff :
    changed (some d) (some e) = false ↔ (∀ k, k ∈ d.keys ↔ k ∈ e.keys) ∧
      ∀ k a b, d.get? k = some a → e.get? k = some b → a.Like b := by
  simp only [changed, Bool.or_eq_false_iff, bne_eq_false_iff_eq, Bool.not_eq_false']
  constructor
  · rintro ⟨hs, hk⟩
    refine ⟨fun k => ⟨fun h => keys_subset_of_kept hk h,
      fun h => keys_subset_of_kept (kept_symm hs hk) h⟩, fun k a b ha hb => ?_⟩
    obtain ⟨c, hc, hac⟩ := kept_iff.1 hk k a ha
    obtain rfl : b = c := Option.some.inj (hb.symm.trans hc)
    exact Binding.same_iff_like.1 hac
  · rintro ⟨hk, hl⟩
    refine ⟨size_eq_of_mem_keys hk, kept_iff.2 fun k a ha => ?_⟩
    obtain ⟨b, hb⟩ := OrderedMap.mem_keys_iff.1 ((hk k).1 (OrderedMap.mem_keys_iff.2 ⟨a, ha⟩))
    exact ⟨b, hb, Binding.same_iff_like.2 (hl k a b ha hb)⟩

theorem changed_eq_false_iff {d e : Option Dependencies} :
    changed d e = false ↔ (d = none ∧ e = none) ∨ ∃ m n, d = some m ∧ e = some n ∧
      (∀ k, k ∈ m.keys ↔ k ∈ n.keys) ∧
      ∀ k a b, m.get? k = some a → n.get? k = some b → a.Like b := by
  cases d with
  | none => cases e <;> simp [changed]
  | some m =>
    cases e with
    | none => simp [changed]
    | some n => simp [changed_some_eq_false_iff]

theorem changed_equivalence : Equivalence fun d e => changed d e = false :=
  ⟨changed_self, changed_symm, changed_trans⟩

theorem changed_comm (d e : Option Dependencies) : changed d e = changed e d := by
  rw [Bool.eq_iff_iff, ← not_iff_not, Bool.not_eq_true, Bool.not_eq_true]
  exact ⟨changed_symm, changed_symm⟩

theorem changed_eq_false_of_perm (h : d.entries.Perm e.entries) :
    changed (some d) (some e) = false := by
  refine changed_some_eq_false_iff.2 ⟨fun k => ?_, fun k a b ha hb => ?_⟩
  · rw [OrderedMap.mem_keys_iff, OrderedMap.mem_keys_iff, OrderedMap.get?_eq_of_perm h]
  · rw [OrderedMap.get?_eq_of_perm h, hb] at ha
    obtain rfl := Option.some.inj ha
    exact Binding.same_iff_like.1 b.same_self

theorem changed_perm {d' e' : Dependencies} (hd : d.entries.Perm d'.entries)
    (he : e.entries.Perm e'.entries) :
    changed (some d) (some e) = changed (some d') (some e') := by
  calc changed (some d) (some e)
      = changed (some d') (some e) := changed_congr (changed_eq_false_of_perm hd) _
    _ = changed (some e) (some d') := changed_comm _ _
    _ = changed (some e') (some d') := changed_congr (changed_eq_false_of_perm he) _
    _ = changed (some d') (some e') := changed_comm _ _

/-- What is unchanged has the same keys and like bindings. That is an equivalence, under which every
NaN is one and so are the two zeros, and no order of the entries matters to it. -/
theorem unchanged_iff_like :
    (∀ d e : Option Dependencies, changed d e = false ↔
      (d = none ∧ e = none) ∨ ∃ m n, d = some m ∧ e = some n ∧
        (∀ k, k ∈ m.keys ↔ k ∈ n.keys) ∧
        ∀ k a b, m.get? k = some a → n.get? k = some b → a.Like b) ∧
    (Equivalence fun d e => changed d e = false) ∧
    Binding.Like (.number 0) (.number 0x8000000000000000) ∧
    ∀ d d' e e' : Dependencies, d.entries.Perm d'.entries → e.entries.Perm e'.entries →
      changed (some d) (some e) = changed (some d') (some e') := by
  refine ⟨fun d e => changed_eq_false_iff, changed_equivalence, ?_,
    fun d d' e e' hd he => changed_perm hd he⟩
  exact Binding.same_iff_like.1 rfl

/-- A NaN and a zero of either sign, listed in two orders. -/
theorem unchanged_across_orders :
    let d := OrderedMap.ofList [("limit", .number 0x7ff8000000000000), ("offset", .number 0)]
    let e := OrderedMap.ofList
      [("offset", .number 0x8000000000000000), ("limit", .number 0xfff0000000000001)]
    let f := OrderedMap.ofList
      [("limit", .number 0xfff0000000000001), ("offset", .number 0x8000000000000000)]
    e.entries.Perm f.entries ∧ changed (some d) (some e) = false ∧
      changed (some e) (some d) = false ∧ changed (some d) (some f) = false := by
  intro d e f
  have hp : e.entries.Perm f.entries := List.Perm.swap ..
  have h : changed (some d) (some e) = false := by decide
  exact ⟨hp, h, unchanged_iff_like.2.1.symm h,
    (unchanged_iff_like.2.2.2 d d e f (.refl _) hp).symm.trans h⟩

end Dependencies

end HotSwap

import HotSwap.Proofs.Evaluation.Readers
import HotSwap.Proofs.Mount.Recompute
/-!
# Reading a node

A memo that was read is clean and holds what was read. In a coherent store such a read ends, for
memos over templates that depend on nothing but the props and for mounted nodes.
-/

namespace HotSwap

open Machine Store

variable {out : ComponentId → Json → String} {stood : Stood}
  {pending : NodeId → Prop} {past : Store → Prop} {s t : Store} {n : NodeId} {m : Memo}
  {x : Content}

namespace Store

theorem precedes_started (s : Store) (n : NodeId) : s.Precedes (s.started n) :=
  { (track_within indifferent_steady.toAdmissible n s (track_eq n s)).2.toGrows.precedes with }

theorem Coherent.started (h : Coherent out stood pending past s)
    (hn : s.nodes[n]? = some (.memo m)) (due : m.Due) :
    ∃ past', (∀ a, past a → past' a) ∧ Coherent out stood pending past' (s.started n) := by
  have hR := (accommodating_preserves out).toAdmissible
  obtain ⟨past', hpast, h'⟩ := (track_within hR n s (track_eq n s)).2.coherent h
  have hn' : (s.tracked n).nodes[n]? = some (.memo m) := by rwa [nodes_tracked]
  exact ⟨past', hpast, (h'.unsubscribe hn' due).congr rfl rfl rfl rfl⟩

end Store

namespace Machine

theorem readNode_holds {c : Calls} (hc : c.Within Steady c) (hn : s.nodes[n]? = some (.memo m))
    (h : readNode c n s = some (x, t)) :
    ∃ m', t.nodes[n]? = some (.memo m') ∧ m'.recipe = m.recipe ∧ m'.freshness = .clean ∧
      m'.value = some x := by
  simp only [readNode, bind_apply, track_eq, Option.bind_some, content_of_memo c hn] at h
  obtain ⟨⟨y, u⟩, hu, h⟩ := Option.bind_eq_some_iff.1 h
  cases h
  rcases Memo.due_or_clean m with due | ⟨v, hf, hv⟩
  · rw [memoContent_of_due c n due] at hu
    obtain ⟨w, hw, rfl⟩ := recompute_eq_some hu
    have hn' : (s.tracked n).nodes[n]? = some (.memo m) := by rwa [nodes_tracked]
    obtain ⟨m', hm', er⟩ := (runRecipe_within indifferent_steady.toAdmissible hc n _ _ hw).2.memo hn'
    have hself : (w.nodes.set n (.memo { m' with value := some y, freshness := .clean }))[n]? =
        some (.memo { m' with value := some y, freshness := .clean }) :=
      List.getElem?_set_self (List.getElem?_eq_some_iff.1 hm').1
    rcases settled_cases (s := { w with frames := w.frames.tail }) hm' y with e | e <;> rw [e]
    · exact ⟨_, hself, er, rfl, rfl⟩
    · exact ⟨_, hself, er, rfl, rfl⟩
  · rw [memoContent_of_clean c n hf hv] at hu
    cases hu
    exact ⟨m, by simpa using hn, rfl, hf, hv⟩

theorem readNode_ends (hn : s.nodes[n]? = some (.memo m))
    (hrun : m.Due → ∃ d x t, runRecipe (calls d) n m.recipe (s.started n) = some (x, t)) :
    ∃ d x t, readNode (calls d) n s = some (x, t) := by
  rcases Memo.due_or_clean m with due | ⟨v, hf, hv⟩
  · obtain ⟨d, x, t, h⟩ := hrun due
    have hcontent := content_of_memo (calls d) hn
    rw [memoContent_of_due _ n due, recompute_of_run h] at hcontent
    exact ⟨d, x, _, readNode_of_content hcontent⟩
  · refine ⟨0, v, _, readNode_of_content (t := s.tracked n) ?_⟩
    rw [content_of_memo _ hn, memoContent_of_clean _ n hf hv]
    rfl

end Machine

end HotSwap

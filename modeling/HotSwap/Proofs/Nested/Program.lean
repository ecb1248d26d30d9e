import HotSwap.Proofs.Nested.Evaluation
/-!
# Programs that nest

A program runs anything inside anything: it provides values, installs scopes that it captured, stops
tracking, reads, renders, and writes what effects answer. On the stacks it does what it does when
its surroundings are handed to it, and it leaves the stacks as it found them.
-/

namespace HotSwap

open Machine

/-- What it does next may depend on what came of what it has done. -/
inductive Nested : Type → Type 1
  | pure {α : Type} (a : α) : Nested α
  | bind {α β : Type} (p : Nested α) (f : α → Nested β) : Nested β
  | aside {α : Type} (m : Machine α) (stackless : m.Stackless) : Nested α
  | read (n : NodeId) : Nested Content
  | write (n : NodeId) (v : Json) : Nested Unit
  | render (k : ComponentId) (props : Json) : Nested View
  | resolve (v : View) : Nested View
  | effect (n : NodeId) : Nested Unit
  | body (env : Env) (e : LinkedExpr) : Nested Json
  | template (env : Env) (t : LinkedTemplate) : Nested View
  | use (k : ContextId) : Nested Json
  | subscriber : Nested (Option NodeId)
  | snapshot : Nested Scope
  | provide {α : Type} (t : Token) (v : Json) (p : Nested α) : Nested α
  | inScope {α : Type} (scope : Scope) (p : Nested α) : Nested α
  | untrack {α : Type} (p : Nested α) : Nested α
  /-- Answers also how many sources the computation has read. -/
  | computation {α : Type} (n : NodeId) (p : Nested α) : Nested (α × Nat)

instance : Monad Nested where
  pure := .pure
  bind := .bind

namespace Nested

variable {α : Type}

def run (c : Calls) : {α : Type} → Nested α → Machine α
  | _, .pure a => return a
  | _, .bind p f => do (f (← p.run c)).run c
  | _, .aside m _ => m
  | _, .read n => c.read n
  | _, .write n v => Machine.write c n v
  | _, .render k props => c.render k props
  | _, .resolve v => c.resolve v
  | _, .effect n => runEffect c n
  | _, .body env e => e.eval c env
  | _, .template env t => t.eval c env
  | _, .use k => useContext k
  | _, .subscriber => Machine.reader
  | _, .snapshot => return (← get).provided
  | _, .provide t v p => providing t v (p.run c)
  | _, .inScope scope p => Machine.inScope scope (p.run c)
  | _, .untrack p => untracked (p.run c)
  | _, .computation n p => inFrame (some n) (p.run c)

def enclosed (c : Enclosed.Calls) : {α : Type} → Nested α → Enclosed α
  | _, .pure a => return a
  | _, .bind p f => do (f (← p.enclosed c)).enclosed c
  | _, .aside m _ => liftM m
  | _, .read n => c.read n
  | _, .write n v => Enclosed.write c n v
  | _, .render k props => c.render k props
  | _, .resolve v => c.resolve v
  | _, .effect n => Enclosed.runEffect c n
  | _, .body env e => e.enclosed c env
  | _, .template env t => t.enclosed c env
  | _, .use k => Enclosed.useContext k
  | _, .subscriber => Enclosed.reader
  | _, .snapshot => return (← Enclosed.enclosures).captured
  | _, .provide t v p => Enclosed.providing t v (p.enclosed c)
  | _, .inScope scope p => Enclosed.inScope scope (p.enclosed c)
  | _, .untrack p => Enclosed.untracked (p.enclosed c)
  | _, .computation n p => Enclosed.inFrame (some n) (p.enclosed c)

theorem follows {c : Calls} {l : Enclosed.Calls} (hc : c.Follow l) (p : Nested α) :
    Follows (p.run c) (p.enclosed l) := by
  induction p with
  | pure a => exact .pure a
  | bind p f ihp ihf => exact .bind ihp ihf
  | aside m stackless => exact .lift stackless
  | read n => exact hc.read n
  | write n v => exact .write hc n v
  | render k props => exact hc.render k props
  | resolve v => exact hc.resolve v
  | effect n => exact .runEffect hc n
  | body env e => exact Expr.eval_follows hc env e
  | template env t => exact Template.eval_follows hc env t
  | use k => exact .useContext k
  | subscriber => exact .reader
  | snapshot => exact .captured fun scope => .pure scope
  | provide t v p ih => exact .providing t v ih
  | inScope scope p ih => exact .inScope scope ih
  | untrack p ih => exact .untracked ih
  | computation n p ih => exact .inFrame (some n) ih

/-- On the stacks a program ends as it does in the surroundings that these describe, and then they
are as before. -/
theorem run_iff_enclosed (p : Nested α) (d : Nat) {π : Enclosures} {s : Store}
    (hπ : π.Describes s) (a : α) (t : Store) :
    p.run (calls d) s = some (a, t) ↔ s.Restored t ∧
      p.enclosed (Enclosed.calls d) π s.sources s.bare = some ((a, t.sources), t.bare) := by
  have h := p.follows (calls_follow d) hπ
  generalize p.run (calls d) s = x at h
  generalize p.enclosed (Enclosed.calls d) π s.sources s.bare = y at h
  cases h with
  | none => simp
  | some hp =>
    rename_i p q
    obtain ⟨⟨b, xs⟩, u⟩ := q
    obtain ⟨rfl, rfl, rfl, hs⟩ := hp
    constructor
    · intro h
      obtain rfl := Option.some.inj h
      exact ⟨hs, rfl⟩
    · -- The surroundings do not say what is on the stacks, but they are put back in one way only.
      rintro ⟨ht, h⟩
      obtain ⟨⟨rfl, hsources⟩, hbare⟩ : (p.1 = a ∧ p.2.sources = t.sources) ∧
          p.2.bare = t.bare := by simpa using h
      exact congrArg some (Prod.ext rfl (ht.unique hs hbare hsources))

end Nested

/-- An effect shows the hour in the light that is provided. -/
def Store.hall : Store where
  nodes := [.signal (.string "noon"),
    .effect ⟨"lamp", .list [.get 0, .use 0, .tracking], false, 0, 0⟩]
  contexts := [⟨0, 0, .string "white"⟩]
  providers := [0]
  edges := Edges.subscribe .empty 0 1
  live := [.node 1, .node 0]
  roots := [.node 1, .node 0]

/-- The hour changes inside two providers, of which the outer one was captured. -/
def Nested.nightfall : Nested (List Json × Option NodeId) := do
  let outdoors ← snapshot
  provide 0 (.string "amber") do
    let indoors ← snapshot
    provide 0 (.string "red") do
      untrack (write 0 (.string "night"))
      let here ← use 0
      let there ← inScope indoors (use 0)
      let away ← inScope outdoors (use 0)
      return ([here, there, away], ← subscriber)

theorem Nested.nightfall_seen : ∃ t,
    nightfall.run (calls 2) .hall =
      some (([.string "red", .string "amber", .string "white"], none), t) ∧
    t.trace = [.effect 1 "lamp" (.array [.string "night", .string "red", .bool true]),
      .read (some 1) 0 (.json (.string "night"))] ∧
    t.frames = [] ∧ t.provided = [] ∧
    nightfall.enclosed (Enclosed.calls 2) [] [] Store.hall.bare =
      some ((([.string "red", .string "amber", .string "white"], none), []), t.bare) := by
  have h := (nightfall.run_iff_enclosed 2 (⟨rfl, rfl⟩ : Enclosures.Describes [] .hall)
    ([.string "red", .string "amber", .string "white"], none) _).1 rfl
  exact ⟨_, rfl, rfl, h.1.frames, h.1.provided, h.2⟩

end HotSwap

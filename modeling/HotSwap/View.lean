/-!
# Views

What a component renders to: nothing, text, a sequence, or a reactive node whose memo holds the view
that stands there.
-/

namespace HotSwap

/-- Identity of a signal, cell, memo, effect or probe. Later ones are greater. -/
abbrev NodeId := Nat

abbrev ComponentId := Nat

abbrev ContextId := Nat

inductive View
  | empty
  | text (content : String)
  | fragment (children : List View)
  | dynamic (node : NodeId)

namespace View

instance : Inhabited View := ⟨empty⟩

mutual

def nodes : View → List NodeId
  | .empty => []
  | .text _ => []
  | .fragment children => nodesAll children
  | .dynamic n => [n]

def nodesAll : List View → List NodeId
  | [] => []
  | v :: rest => v.nodes ++ nodesAll rest

end

mutual

def same : View → View → Bool
  | .empty, .empty => true
  | .text a, .text b => a == b
  | .fragment a, .fragment b => sameAll a b
  | .dynamic a, .dynamic b => a == b
  | _, _ => false

def sameAll : List View → List View → Bool
  | [], [] => true
  | v :: vs, w :: ws => v.same w && sameAll vs ws
  | _, _ => false

end

def isDynamic : View → Bool
  | .dynamic _ => true
  | _ => false

mutual

/-- The text leaves, from left to right; reactive nodes count as empty. -/
def flatText : View → String
  | .empty => ""
  | .text s => s
  | .fragment children => flatTextAll children
  | .dynamic _ => ""

def flatTextAll : List View → String
  | [] => ""
  | v :: rest => v.flatText ++ flatTextAll rest

end

end View

end HotSwap

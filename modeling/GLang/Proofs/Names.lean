import Mathlib.Tactic.Tauto
import GLang.Lower.Infer
import GLang.Syntax.Stmt

/-!
# The variables that code mentions

* `Expr.names`, `Stmt.names`: the variables of an expression and of a simple statement.
* `Stmt.mentions`, `Stmt.newNames`: those that any statement mentions, and those that it declares.
* `Expr.variableNames_nodes_subset`, `Expr.mem_names_of_firstAddressOf?`: what the type of an
  expression is taken from is among them.
-/

namespace GLang

mutual

/-- The variables that an expression mentions. -/
def Expr.names : Expr → List String
  | .var x | .addressOf x => [x]
  | .deref e | .cast e _ | .negate e | .step _ _ e => e.names
  | .binary _ l r => l.names ++ r.names
  | .call _ args => Expr.allNames args
  | .int _ | .str _ => []

def Expr.allNames : List Expr → List String
  | [] => []
  | e :: rest => e.names ++ Expr.allNames rest

end

/-- The variables that a simple statement mentions. -/
def Stmt.names : Stmt → List String
  | .assign x e | .store x e => x :: e.names
  | .storeAt a e => a.names ++ e.names
  | .step _ x => [x]
  | .run e => e.names
  | _ => []

namespace Stmt

mutual

/-- The variables that a statement mentions, without those it declares. -/
def mentions : Stmt → List String
  | .declare _ _ init => init.elim [] Expr.names
  | .branch first others otherwise =>
    armMentions first ++ armsMentions others ++ elseMentions otherwise
  | .whileLoop condition body => condition.names ++ blockMentions body
  | .forLoop init condition increment body =>
    clauseMentions init ++ condition.elim [] Expr.names ++ clauseMentions increment ++
      blockMentions body
  | .ret value => value.elim [] Expr.names
  | s => s.names

def blockMentions : List Stmt → List String
  | [] => []
  | s :: rest => s.mentions ++ blockMentions rest

def armMentions : Arm → List String
  | .mk condition body => condition.names ++ blockMentions body

def armsMentions : List Arm → List String
  | [] => []
  | arm :: rest => armMentions arm ++ armsMentions rest

def elseMentions : Option (List Stmt) → List String
  | none => []
  | some body => blockMentions body

def clauseMentions : Option Stmt → List String
  | none => []
  | some s => s.mentions

end

end Stmt

/-- The names that a statement adds to its block. -/
def Stmt.newNames : Stmt → List String
  | .declare x _ _ => [x]
  | _ => []

namespace Expr

/-- The variables of a node are variables of the expression. -/
theorem names_subset_of_mem_nodes : ∀ {e node : Expr}, node ∈ e.nodes → node.names ⊆ e.names
  | .int _, node, h | .str _, node, h | .var _, node, h | .addressOf _, node, h
  | .call _ _, node, h => by
    obtain rfl : node = _ := List.mem_singleton.1 h
    exact List.Subset.refl _
  | .deref e, node, h | .cast e _, node, h | .negate e, node, h | .step _ _ e, node, h => by
    rcases List.mem_cons.1 h with rfl | h
    · exact List.Subset.refl _
    · exact names_subset_of_mem_nodes (e := e) h
  | .binary op l r, node, h => by
    have hcases : node = .binary op l r ∨ node ∈ l.nodes ∨ node ∈ r.nodes := by
      simp only [nodes, descendants, List.mem_cons, List.mem_append] at h ⊢
      tauto
    rcases hcases with rfl | h | h
    · exact List.Subset.refl _
    · exact fun x hx => List.mem_append_left _ (names_subset_of_mem_nodes h hx)
    · exact fun x hx => List.mem_append_right _ (names_subset_of_mem_nodes h hx)

theorem variableNames_nodes_subset (e : Expr) : variableNames e.nodes ⊆ e.names := by
  intro x hx
  obtain ⟨node, hnode, hx⟩ := List.mem_filterMap.1 hx
  cases node with
  | var y =>
    cases hx
    exact names_subset_of_mem_nodes hnode List.mem_cons_self
  | _ => cases hx

theorem mem_names_of_firstAddressOf? {e : Expr} {x : String}
    (h : firstAddressOf? e.nodes = some x) : x ∈ e.names := by
  obtain ⟨node, hnode, hx⟩ := List.exists_of_findSome?_eq_some h
  cases node with
  | addressOf y =>
    cases hx
    exact names_subset_of_mem_nodes hnode List.mem_cons_self
  | _ => cases hx

end Expr

end GLang

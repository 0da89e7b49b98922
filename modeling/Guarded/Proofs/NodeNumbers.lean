import Guarded.Proofs.Spelling

/-!
Node numbers are a numbering of the tree. A program is outlined as the tree of its nodes:
identifiers, expressions, statements, blocks and guards, each with the nodes it is made of. Whatever
tokens it was read from, its nodes have the numbers from zero on, each number once, and a node has a
greater number than every node inside it.

Numbers are handed out when a node is finished. So listed with parts before wholes they are in
order, and what is inside a node comes before it.
-/

namespace Guarded

/-- A node, by its number, with the nodes it is made of. -/
inductive Outline where
  | node (id : NodeId) (parts : List Outline)

namespace Outline

def id : Outline → NodeId
  | node id _ => id

def parts : Outline → List Outline
  | node _ parts => parts

/-- The first node is part of the second, or of one of its parts, and so on. -/
inductive Inside : Outline → Outline → Prop where
  | part {i : NodeId} {o : Outline} {parts : List Outline} (mem : o ∈ parts) :
    Inside o (node i parts)
  | deeper {i : NodeId} {o o' : Outline} {parts : List Outline} (inner : Inside o o')
    (mem : o' ∈ parts) : Inside o (node i parts)

mutual

/-- A node and all that are inside it, parts before wholes. -/
def nodes : Outline → List Outline
  | node i parts => nodesAll parts ++ [node i parts]

def nodesAll : List Outline → List Outline
  | [] => []
  | o :: os => o.nodes ++ nodesAll os

end

/-- The numbers of nodes and of all that are inside them, parts before wholes. -/
def numbers (os : List Outline) : List NodeId :=
  (nodesAll os).map id

@[simp]
theorem numbers_nil : numbers [] = [] := by
  simp [numbers, nodesAll]

@[simp]
theorem numbers_node (i : NodeId) (parts os : List Outline) :
    numbers (node i parts :: os) = numbers parts ++ i :: numbers os := by
  simp [numbers, nodesAll, nodes, id]

theorem numbers_cons (o : Outline) (os : List Outline) :
    numbers (o :: os) = numbers [o] ++ numbers os := by
  simp [numbers, nodesAll]

/-- A form of the last statement that does not repeat. -/
theorem numbers_cons_cons (o o' : Outline) (os : List Outline) :
    numbers (o :: o' :: os) = numbers [o] ++ numbers (o' :: os) :=
  numbers_cons o (o' :: os)

@[simp]
theorem numbers_append (os os' : List Outline) :
    numbers (os ++ os') = numbers os ++ numbers os' := by
  induction os with
  | nil => simp
  | cons o os ih => rw [List.cons_append, numbers_cons, ih, numbers_cons o os, List.append_assoc]

theorem mem_nodesAll {o o' : Outline} {os : List Outline} (inner : o ∈ o'.nodes) (mem : o' ∈ os) :
    o ∈ nodesAll os := by
  induction os with
  | nil => simp at mem
  | cons head os ih =>
    rw [nodesAll]
    rcases List.mem_cons.mp mem with rfl | mem
    · exact List.mem_append_left _ inner
    · exact List.mem_append_right _ (ih mem)

theorem mem_nodes (o : Outline) : o ∈ o.nodes := by
  cases o
  simp [nodes]

theorem Inside.mem {o o' : Outline} (inside : o.Inside o') : o ∈ nodesAll o'.parts := by
  induction inside with
  | part mem => exact mem_nodesAll (mem_nodes _) mem
  | @deeper i o o' parts inner mem ih =>
    refine mem_nodesAll ?_ mem
    cases o'
    exact List.mem_append_left _ ih

mutual

/-- The numbers of a node and of what is inside it are listed together, its own last. -/
theorem numbers_sublist : (o : Outline) → ∀ o' ∈ o.nodes,
    (numbers o'.parts ++ [o'.id]).Sublist (numbers [o])
  | node i parts, o', mem => by
    rw [numbers_node, numbers_nil]
    rw [nodes] at mem
    rcases List.mem_append.mp mem with inner | own
    · exact (numbersAll_sublist parts o' inner).trans (List.sublist_append_left _ _)
    · obtain rfl := List.mem_singleton.mp own
      exact List.Sublist.refl _

theorem numbersAll_sublist : (os : List Outline) → ∀ o ∈ nodesAll os,
    (numbers o.parts ++ [o.id]).Sublist (numbers os)
  | [], o, mem => by simp [nodesAll] at mem
  | head :: os, o, mem => by
    rw [nodesAll] at mem
    rw [numbers_cons]
    rcases List.mem_append.mp mem with first | later
    · exact (numbers_sublist head o first).trans (List.sublist_append_left _ _)
    · exact (numbersAll_sublist os o later).trans (List.sublist_append_right _ _)

end

/-- Where the numbers are in order, a node has a greater one than all that is inside it. -/
theorem Inside.id_lt {os : List Outline} (sorted : (numbers os).Pairwise (· < ·)) {o o' : Outline}
    (mem : o ∈ nodesAll os) (inside : o'.Inside o) : o'.id < o.id := by
  have own := sorted.sublist (numbersAll_sublist os o mem)
  have listed : o'.id ∈ numbers o.parts := List.mem_map_of_mem inside.mem
  exact (List.pairwise_append.mp own).2.2 _ listed _ (List.mem_singleton_self _)

end Outline

open Outline (numbers)

def Ident.outline (name : Ident) : Outline :=
  .node name.id []

theorem Ident.numbers_outlines (names : List Ident) :
    numbers (names.map outline) = names.map Ident.id := by
  induction names with
  | nil => simp
  | cons name names ih => simp [outline, ih]

namespace Expr

mutual

def outline : Expr → Outline
  | .int n _ | .float n _ | .bool n _ => .node n.id []
  | .var n name => .node n.id [name.outline]
  | .index n array i => .node n.id [array.outline, i.outline]
  | .call n callee args => .node n.id (callee.outline :: outlines args)
  | .paren n inner => .node n.id [inner.outline]
  | .unary n _ operand => .node n.id [operand.outline]
  | .binary n _ lhs rhs => .node n.id [lhs.outline, rhs.outline]

def outlines : List Expr → List Outline
  | [] => []
  | e :: es => e.outline :: outlines es

end

mutual

theorem numbers_outline : (e : Expr) → numbers [e.outline] = e.ids
  | .int .. | .float .. | .bool .. => by simp [outline, ids]
  | .var .. => by simp [outline, ids, Ident.outline]
  | .index _ _ i => by simp [outline, ids, Ident.outline, numbers_outline i]
  | .call _ _ args => by simp [outline, ids, Ident.outline, numbers_outlines args]
  | .paren _ inner => by simp [outline, ids, numbers_outline inner]
  | .unary _ _ operand => by simp [outline, ids, numbers_outline operand]
  | .binary _ _ lhs rhs => by
    simp [outline, ids, Outline.numbers_cons_cons, numbers_outline lhs, numbers_outline rhs]

theorem numbers_outlines : (es : List Expr) → numbers (outlines es) = idsAll es
  | [] => by simp [outlines, idsAll]
  | e :: es => by
    rw [outlines, Outline.numbers_cons, numbers_outline e, numbers_outlines es, idsAll]

end

end Expr

namespace Target

def outlines : Target → List Outline
  | .var name => [name.outline]
  | .index array i => [array.outline, i.outline]

theorem numbers_outlines (ts : List Target) : numbers (ts.flatMap outlines) = idsAll ts := by
  induction ts with
  | nil => simp [idsAll]
  | cons t ts ih =>
    cases t with
    | var name => simp [outlines, idsAll, ids, ih, Ident.outline]
    | index array i =>
      rw [List.flatMap_cons, Outline.numbers_append, ih, idsAll]
      simp [outlines, ids, Ident.outline, Expr.numbers_outline]

end Target

mutual

def Stmt.outline : Stmt → Outline
  | .varDecl n _ names => .node n.id (names.map Ident.outline)
  | .arrayDecl n _ size names => .node n.id (size.outline :: names.map Ident.outline)
  | .method n name params _ block body =>
    .node n.id (name.outline :: (params.map Param.name).map Ident.outline ++
      [.node block.id (Stmt.outlines body)])
  | .assign n targets values =>
    .node n.id (targets.flatMap Target.outlines ++ Expr.outlines values)
  | .input n names => .node n.id (names.map Ident.outline)
  | .print n value => .node n.id [value.outline]
  | .alternative n guards | .iterative n guards => .node n.id (Guard.outlines guards)
  | .block n block body => .node n.id [.node block.id (Stmt.outlines body)]
  | .ret n none => .node n.id []
  | .ret n (some value) => .node n.id [value.outline]
  | .call n callee args => .node n.id (callee.outline :: Expr.outlines args)

def Stmt.outlines : List Stmt → List Outline
  | [] => []
  | s :: ss => s.outline :: Stmt.outlines ss

def Guard.outlines : List Guard → List Outline
  | [] => []
  | .mk n cond body :: gs => .node n.id [cond.outline, body.outline] :: Guard.outlines gs

end

mutual

theorem Stmt.numbers_outline : (s : Stmt) → numbers [s.outline] = s.ids
  | .varDecl .. | .input .. => by simp [Stmt.outline, Stmt.ids, Ident.numbers_outlines]
  | .arrayDecl _ _ size names => by
    rw [Stmt.outline, Outline.numbers_node, Outline.numbers_cons, Expr.numbers_outline,
      Ident.numbers_outlines, Stmt.ids, Outline.numbers_nil]
  | .method _ name params _ block body => by
    rw [Stmt.outline, Outline.numbers_node, Outline.numbers_append, Outline.numbers_cons,
      Ident.numbers_outlines]
    simp [Stmt.ids, Ident.outline, Stmt.numbers_outlines body]
  | .assign _ targets values => by
    simp [Stmt.outline, Stmt.ids, Target.numbers_outlines, Expr.numbers_outlines]
  | .print _ value => by simp [Stmt.outline, Stmt.ids, Expr.numbers_outline]
  | .alternative _ guards | .iterative _ guards => by
    simp [Stmt.outline, Stmt.ids, Guard.numbers_outlines guards]
  | .block _ _ body => by simp [Stmt.outline, Stmt.ids, Stmt.numbers_outlines body]
  | .ret _ none => by simp [Stmt.outline, Stmt.ids]
  | .ret _ (some value) => by simp [Stmt.outline, Stmt.ids, Expr.numbers_outline]
  | .call _ _ args => by simp [Stmt.outline, Stmt.ids, Ident.outline, Expr.numbers_outlines]

theorem Stmt.numbers_outlines : (ss : List Stmt) → numbers (Stmt.outlines ss) = Stmt.idsAll ss
  | [] => by simp [Stmt.outlines, Stmt.idsAll]
  | s :: ss => by
    rw [Stmt.outlines, Outline.numbers_cons, Stmt.numbers_outline s, Stmt.numbers_outlines ss,
      Stmt.idsAll]

theorem Guard.numbers_outlines : (gs : List Guard) → numbers (Guard.outlines gs) = Guard.idsAll gs
  | [] => by simp [Guard.outlines, Guard.idsAll]
  | .mk _ cond body :: gs => by
    simp [Guard.outlines, Guard.idsAll, Outline.numbers_cons_cons, Expr.numbers_outline,
      Stmt.numbers_outline body, Guard.numbers_outlines gs]

end

/-- All identifiers, expressions, statements, blocks and guards of a program. -/
def Program.nodes (p : Program) : List Outline :=
  Outline.nodesAll (p.name.outline :: Stmt.outlines p.body)

theorem Program.nodes_ids (p : Program) : p.nodes.map Outline.id = p.ids := by
  have all := Stmt.numbers_outlines p.body
  show numbers (p.name.outline :: Stmt.outlines p.body) = p.ids
  simp [Ident.outline, all, Program.ids]

namespace Cursor

/-- Node numbers are a numbering of the tree. Whatever tokens a program is read from, the numbers of
its nodes are pairwise different and are just those below the number of its nodes, which is where
the cursor would go on; and the number of a node is greater than those of all nodes inside it. -/
theorem program_numbered {tokens : List Token} {p : Program} {d : Cursor}
    (read : (ofTokens tokens).program = .ok p d) :
    (p.nodes.map Outline.id).Nodup ∧
      (∀ i, i ∈ p.nodes.map Outline.id ↔ i < p.nodes.length) ∧
      d.nextId = p.nodes.length ∧
      ∀ o ∈ p.nodes, ∀ inner : Outline, inner.Inside o → inner.id < o.id := by
  obtain ⟨_, takes, rfl, -⟩ := Parse.program_reads _ (ofTokens_fit tokens) p d read
  have handed : p.ids = List.range' (ofTokens tokens).nextId p.ids.length := takes.numbers
  have length : p.ids.length = p.nodes.length := by
    rw [← p.nodes_ids, List.length_map]
  have numbers : p.nodes.map Outline.id = List.range p.nodes.length := by
    rw [p.nodes_ids, handed, length, List.range_eq_range']
    rfl
  rw [numbers]
  refine ⟨List.nodup_range, fun i => List.mem_range, ?_, fun o mem inner inside => ?_⟩
  · rw [takes.next, length]
    exact Nat.zero_add _
  · have sorted : (p.nodes.map Outline.id).Pairwise (· < ·) := numbers ▸ List.pairwise_lt_range
    exact inside.id_lt sorted mem

/-- Every sort of node, in tokens that no text has: a name with a `$`, and no end. -/
def everyNode : List Token :=
  let source := "program p int[2] xs; fun f(int a) : int \x7b return -a \x7d " ++
    "if xs[0] < f(1) :: xs[1] <- (2); fi print "
  (tokenize source).dropLast ++ [⟨.ident "a$", .nowhere⟩]

/-- The number that comes next when a program has been read. -/
def nextNumber? : EStateM.Result Error Cursor Program → Option NodeId
  | .ok _ d => some d.nextId
  | .error _ _ => none

theorem program_numbered_everyNode : ∃ p d, (ofTokens everyNode).program = .ok p d ∧
    p.nodes.length = 29 ∧ (p.nodes.map Outline.id).Nodup ∧
      (∀ i, i ∈ p.nodes.map Outline.id ↔ i < p.nodes.length) ∧
      ∀ o ∈ p.nodes, ∀ inner : Outline, inner.Inside o → inner.id < o.id := by
  have next : nextNumber? (ofTokens everyNode).program = some 29 := by
    decide +kernel
  cases read : (ofTokens everyNode).program with
  | error e d =>
    rw [read] at next
    cases next
  | ok p d =>
    rw [read] at next
    obtain ⟨distinct, below, length, inside⟩ := program_numbered read
    exact ⟨p, d, rfl, length.symm.trans (Option.some.inj next), distinct, below, inside⟩

end Cursor

end Guarded

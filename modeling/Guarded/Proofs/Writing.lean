import Guarded.Proofs.Rounding
import Guarded.Proofs.Spelling

/-!
How programs may be written. A program is written by the tokens it spells, with semicolons between
statements. One has to stand behind the body of a guard. Behind a statement of a block, or of the
program, one may stand or not, but a `return` without a value must not run into a name, which would
be taken for its value.

Every tree that keeps to the grammar can be written, and every way to write it is some list of
tokens. For float literals that needs an argument: a literal holds a double, and the tree keeps the
single nearest to it.
-/

namespace Guarded

/-- A name without its place. -/
def Ident.bare (name : Ident) : Ident :=
  ⟨0, name.name, .nowhere⟩

def Param.bare (p : Param) : Param :=
  ⟨p.name.bare, p.ty⟩

/-- The node of a tree whose places do not count. -/
def Node.blank : Node :=
  ⟨0, .nowhere⟩

mutual

/-- An expression without the numbers and regions of its nodes. -/
def Expr.bare : Expr → Expr
  | .int _ v => .int .blank v
  | .float _ v => .float .blank v
  | .bool _ b => .bool .blank b
  | .var _ name => .var .blank name.bare
  | .index _ array i => .index .blank array.bare i.bare
  | .call _ callee args => .call .blank callee.bare (Expr.bareAll args)
  | .paren _ inner => .paren .blank inner.bare
  | .unary _ op operand => .unary .blank op operand.bare
  | .binary _ op lhs rhs => .binary .blank op lhs.bare rhs.bare

def Expr.bareAll : List Expr → List Expr
  | [] => []
  | e :: es => e.bare :: Expr.bareAll es

end

def Target.bare : Target → Target
  | .var name => .var name.bare
  | .index array i => .index array.bare i.bare

mutual

/-- A statement without the numbers and regions of its nodes. -/
def Stmt.bare : Stmt → Stmt
  | .varDecl _ ty names => .varDecl .blank ty (names.map Ident.bare)
  | .arrayDecl _ ty size names => .arrayDecl .blank ty size.bare (names.map Ident.bare)
  | .method _ name params result _ body =>
    .method .blank name.bare (params.map Param.bare) result .blank (Stmt.bareAll body)
  | .assign _ targets values =>
    .assign .blank (targets.map Target.bare) (Expr.bareAll values)
  | .input _ names => .input .blank (names.map Ident.bare)
  | .print _ value => .print .blank value.bare
  | .alternative _ guards => .alternative .blank (Guard.bareAll guards)
  | .iterative _ guards => .iterative .blank (Guard.bareAll guards)
  | .block _ _ body => .block .blank .blank (Stmt.bareAll body)
  | .ret _ value => .ret .blank (value.map Expr.bare)
  | .call _ callee args => .call .blank callee.bare (Expr.bareAll args)

def Stmt.bareAll : List Stmt → List Stmt
  | [] => []
  | s :: ss => s.bare :: Stmt.bareAll ss

def Guard.bareAll : List Guard → List Guard
  | [] => []
  | .mk _ cond body :: gs => .mk .blank cond.bare body.bare :: Guard.bareAll gs

end

/-- A program without the numbers and regions of its nodes. -/
def Program.bare (p : Program) : Program :=
  ⟨p.name.bare, Stmt.bareAll p.body, .nowhere⟩

mutual

/-- Expressions that can be written: integers that are not negative, finite floats, and operators
that are grouped as they bind. -/
def Expr.Writable : Expr → Prop
  | .int _ v => 0 ≤ v.toInt
  | .float _ v => v.isFinite = true
  | .bool .. | .var .. => True
  | .index _ _ i => i.Writable
  | .call _ _ args => Expr.WritableAll args
  | .paren _ inner => inner.Writable
  | .unary n op operand => operand.Writable ∧ (Expr.unary n op operand).Grouped
  | .binary n op lhs rhs => lhs.Writable ∧ rhs.Writable ∧ (Expr.binary n op lhs rhs).Grouped

def Expr.WritableAll : List Expr → Prop
  | [] => True
  | e :: es => e.Writable ∧ Expr.WritableAll es

end

def Target.Writable : Target → Prop
  | .var _ => True
  | .index _ i => i.Writable

mutual

/-- Statements that can be written: no list of names, targets, values or guards is empty, and the
types are those that have a keyword. -/
def Stmt.Writable : Stmt → Prop
  | .varDecl _ ty names => ty.isTerminal = true ∧ names ≠ []
  | .arrayDecl _ ty size names => ty.isTerminal = true ∧ size.Writable ∧ names ≠ []
  | .method _ _ params result _ body =>
    (∀ p ∈ params, ∀ ty, p.ty = some ty → ty.isTerminal = true) ∧
      (∀ ty, result = some ty → ty.isTerminal = true) ∧ Stmt.WritableAll body
  | .assign _ targets values =>
    targets ≠ [] ∧ (∀ t ∈ targets, t.Writable) ∧ values ≠ [] ∧ Expr.WritableAll values
  | .input _ names => names ≠ []
  | .print _ value => value.Writable
  | .alternative _ guards | .iterative _ guards => guards ≠ [] ∧ Guard.WritableAll guards
  | .block _ _ body => Stmt.WritableAll body
  | .ret _ value => ∀ e, value = some e → e.Writable
  | .call _ _ args => Expr.WritableAll args

def Stmt.WritableAll : List Stmt → Prop
  | [] => True
  | s :: ss => s.Writable ∧ Stmt.WritableAll ss

def Guard.WritableAll : List Guard → Prop
  | [] => True
  | .mk _ cond body :: gs => cond.Writable ∧ body.Writable ∧ Guard.WritableAll gs

end

/-- Statements whose first token is a name. -/
def Stmt.startsWithName : Stmt → Bool
  | .assign .. | .call .. => true
  | _ => false

def Stmt.isBareReturn : Stmt → Bool
  | .ret _ none => true
  | _ => false

/-- The statements that follow may be written right behind this one. -/
def Stmt.mayPrecede (s : Stmt) (ss : List Stmt) : Bool :=
  !(s.isBareReturn && (ss.head?.map Stmt.startsWithName).getD false)

mutual

/-- The tokens may stand for the statement. -/
def Stmt.Written : Stmt → List Token.Mark → Prop
  | .method _ name params result _ body, ms =>
    ∃ inner, Stmt.WrittenAll body inner ∧
      ms = spellHead name params result ++ .kind .lbrace :: (inner ++ [.kind .rbrace])
  | .alternative _ guards, ms =>
    ∃ inner, Guard.WrittenAll guards inner ∧ ms = .kind .if :: (inner ++ [.kind .fi])
  | .iterative _ guards, ms =>
    ∃ inner, Guard.WrittenAll guards inner ∧ ms = .kind .do :: (inner ++ [.kind .od])
  | .block _ _ body, ms =>
    ∃ inner, Stmt.WrittenAll body inner ∧ ms = .kind .lbrace :: (inner ++ [.kind .rbrace])
  | s, ms => ms = s.spell

/-- The tokens may stand for the statements of a block or program: semicolons are optional where the
statements may stand side by side. -/
def Stmt.WrittenAll : List Stmt → List Token.Mark → Prop
  | [], ms => ms = []
  | s :: ss, ms =>
    ∃ first rest, s.Written first ∧ Stmt.WrittenAll ss rest ∧
      (ms = first ++ .kind .semicolon :: rest ∨ s.mayPrecede ss = true ∧ ms = first ++ rest)

/-- The tokens may stand for guards: a semicolon follows each body. -/
def Guard.WrittenAll : List Guard → List Token.Mark → Prop
  | [], ms => ms = []
  | .mk _ cond body :: gs, ms =>
    ∃ first rest, body.Written first ∧ Guard.WrittenAll gs rest ∧
      ms = cond.spell ++ .kind .guard :: (first ++ .kind .semicolon :: rest)

end

/-- The tokens may stand for the program. -/
def Program.Written (p : Program) (ms : List Token.Mark) : Prop :=
  ∃ inner, Stmt.WrittenAll p.body inner ∧ ms = .kind .program :: p.name.mark :: inner

/-- Some token leaves this mark. -/
def Token.Mark.Arises (m : Mark) : Prop :=
  ∃ k, k ≠ .eof ∧ Kind.mark k = m

namespace Token

theorem Mark.Arises.kind {k : Kind} (shown : k.isShown = true) : (Mark.kind k).Arises := by
  refine ⟨k, Kind.ne_eof_of_isShown shown, ?_⟩
  cases k <;> first | rfl | cases shown

theorem arises_cons {k : Kind} {ms : List Mark} (shown : k.isShown = true)
    (rest : ∀ m ∈ ms, m.Arises) : ∀ m ∈ Mark.kind k :: ms, m.Arises :=
  List.forall_mem_cons.mpr ⟨.kind shown, rest⟩

theorem arises_append {xs ys : List Mark} (hx : ∀ m ∈ xs, m.Arises) (hy : ∀ m ∈ ys, m.Arises) :
    ∀ m ∈ xs ++ ys, m.Arises :=
  List.forall_mem_append.mpr ⟨hx, hy⟩

theorem arises_single {k : Kind} (shown : k.isShown = true) : ∀ m ∈ [Mark.kind k], m.Arises :=
  arises_cons shown (by simp)

theorem arises_nil : ∀ m ∈ ([] : List Mark), m.Arises := by
  simp

/-- What the tokens before the end of the text leave, semicolons included. -/
def writing (tokens : List Token) : List Mark :=
  ((tokens.map Token.kind).takeWhile (· ≠ .eof)).map Kind.mark

/-- Marks that arise one by one are left by some list of tokens. -/
theorem exists_writing {ms : List Mark} (arise : ∀ m ∈ ms, m.Arises) :
    ∃ tokens, writing tokens = ms := by
  induction ms with
  | nil => exact ⟨[], rfl⟩
  | cons m ms ih =>
    obtain ⟨⟨k, notEnd, rfl⟩, rest⟩ := List.forall_mem_cons.mp arise
    obtain ⟨tokens, rfl⟩ := ih rest
    refine ⟨⟨k, .nowhere⟩ :: tokens, ?_⟩
    rw [writing, List.map_cons, List.takeWhile_cons_of_pos (by simpa using notEnd), List.map_cons,
      writing]

end Token

open Token

theorem Ty.spell_arises (ty : Ty) : ∀ m ∈ ty.spell, m.Arises := by
  cases ty <;> first | exact arises_nil | exact arises_single rfl

theorem spellList_arises {α : Type} {spell : α → List Mark} {xs : List α}
    (each : ∀ x ∈ xs, ∀ m ∈ spell x, m.Arises) : ∀ m ∈ spellList spell xs, m.Arises := by
  induction xs using spellList.induct with
  | case1 => exact arises_nil
  | case2 x => exact each x (by simp)
  | case3 x y xs ih =>
    rw [List.forall_mem_cons] at each
    exact arises_append each.1 (arises_cons rfl (ih each.2))

theorem names_arise (names : List Ident) :
    ∀ m ∈ spellList (fun name => [name.mark]) names, m.Arises :=
  spellList_arises fun _ _ => arises_single rfl

theorem Param.spell_arises (p : Param) : ∀ m ∈ p.spell, m.Arises := by
  refine arises_append ?_ (arises_single rfl)
  cases p.ty with
  | none => exact arises_nil
  | some ty => exact ty.spell_arises

theorem spellHead_arises (name : Ident) (params : List Param) (result : Option Ty) :
    ∀ m ∈ spellHead name params result, m.Arises := by
  refine arises_cons (by cases result <;> rfl) (arises_cons rfl (arises_cons rfl ?_))
  refine arises_append (spellList_arises fun p _ => p.spell_arises) (arises_cons rfl ?_)
  cases result with
  | none => exact arises_nil
  | some ty => exact arises_cons rfl ty.spell_arises

namespace Expr

mutual

theorem spell_arises : (e : Expr) → e.Writable → ∀ m ∈ e.spell, m.Arises
  | .int .., _ => arises_single rfl
  | .float _ v, finite => by
    obtain ⟨w, rfl⟩ := Number.exists_narrow finite
    exact List.forall_mem_cons.mpr ⟨⟨.floatLit w, nofun, rfl⟩, arises_nil⟩
  | .bool _ b, _ => arises_single (by cases b <;> rfl)
  | .var .., _ => arises_single rfl
  | .index _ _ i, h =>
    arises_cons rfl (arises_cons rfl (arises_append (spell_arises i h) (arises_single rfl)))
  | .call _ _ args, h =>
    arises_cons rfl (arises_cons rfl (arises_append (spellAll_arises args h) (arises_single rfl)))
  | .paren _ inner, h => arises_cons rfl (arises_append (spell_arises inner h) (arises_single rfl))
  | .unary _ op operand, h => arises_cons (by cases op <;> rfl) (spell_arises operand h.1)
  | .binary _ op lhs rhs, h =>
    arises_append (spell_arises lhs h.1) (arises_cons op.token_isShown (spell_arises rhs h.2.1))

theorem spellAll_arises : (es : List Expr) → WritableAll es → ∀ m ∈ spellAll es, m.Arises
  | [], _ => arises_nil
  | [e], h => spell_arises e h.1
  | e :: e' :: es, h =>
    arises_append (spell_arises e h.1) (arises_cons rfl (spellAll_arises (e' :: es) h.2))

end

end Expr

theorem Target.spell_arises {t : Target} (h : t.Writable) : ∀ m ∈ t.spell, m.Arises := by
  cases t with
  | var name => exact arises_single rfl
  | index array i =>
    exact arises_cons rfl (arises_cons rfl (arises_append (i.spell_arises h) (arises_single rfl)))

mutual

theorem Stmt.written_arises : (s : Stmt) → {ms : List Mark} → s.Writable → s.Written ms →
    ∀ m ∈ ms, m.Arises
  | .varDecl _ ty names, _, _, rfl => arises_append ty.spell_arises (names_arise names)
  | .arrayDecl _ ty size names, _, h, rfl =>
    arises_append ty.spell_arises (arises_cons rfl
      (arises_append (size.spell_arises h.2.1) (arises_cons rfl (names_arise names))))
  | .method _ name params result _ body, _, h, ⟨_, written, rfl⟩ =>
    arises_append (spellHead_arises name params result) (arises_cons rfl
      (arises_append (Stmt.writtenAll_arises body h.2.2 written) (arises_single rfl)))
  | .assign _ targets values, _, h, rfl =>
    arises_append (spellList_arises fun t mem => Target.spell_arises (h.2.1 t mem))
      (arises_cons rfl (Expr.spellAll_arises values h.2.2.2))
  | .input _ names, _, _, rfl => arises_cons rfl (names_arise names)
  | .print _ value, _, h, rfl => arises_cons rfl (value.spell_arises h)
  | .alternative _ guards, _, h, ⟨_, written, rfl⟩ =>
    arises_cons rfl (arises_append (Guard.writtenAll_arises guards h.2 written) (arises_single rfl))
  | .iterative _ guards, _, h, ⟨_, written, rfl⟩ =>
    arises_cons rfl (arises_append (Guard.writtenAll_arises guards h.2 written) (arises_single rfl))
  | .block _ _ body, _, h, ⟨_, written, rfl⟩ =>
    arises_cons rfl (arises_append (Stmt.writtenAll_arises body h written) (arises_single rfl))
  | .ret _ none, _, _, rfl => arises_single rfl
  | .ret _ (some value), _, h, rfl => arises_cons rfl (value.spell_arises (h value rfl))
  | .call _ _ args, _, h, rfl =>
    arises_cons rfl (arises_cons rfl
      (arises_append (Expr.spellAll_arises args h) (arises_single rfl)))

theorem Stmt.writtenAll_arises : (ss : List Stmt) → {ms : List Mark} → Stmt.WritableAll ss →
    Stmt.WrittenAll ss ms → ∀ m ∈ ms, m.Arises
  | [], _, _, rfl => arises_nil
  | s :: ss, _, h, ⟨_, _, own, others, joined⟩ => by
    have first := Stmt.written_arises s h.1 own
    have rest := Stmt.writtenAll_arises ss h.2 others
    rcases joined with rfl | ⟨-, rfl⟩
    · exact arises_append first (List.forall_mem_cons.mpr ⟨⟨.semicolon, nofun, rfl⟩, rest⟩)
    · exact arises_append first rest

theorem Guard.writtenAll_arises : (gs : List Guard) → {ms : List Mark} → Guard.WritableAll gs →
    Guard.WrittenAll gs ms → ∀ m ∈ ms, m.Arises
  | [], _, _, rfl => arises_nil
  | .mk _ cond body :: gs, _, h, ⟨_, _, own, others, rfl⟩ =>
    arises_append (cond.spell_arises h.1) (arises_cons rfl
      (arises_append (Stmt.written_arises body h.2.1 own)
        (List.forall_mem_cons.mpr ⟨⟨.semicolon, nofun, rfl⟩,
          Guard.writtenAll_arises gs h.2.2 others⟩)))

end

mutual

theorem Stmt.exists_written : (s : Stmt) → ∃ ms, s.Written ms
  | .method _ _ _ _ _ body =>
    have ⟨inner, written⟩ := Stmt.exists_writtenAll body
    ⟨_, inner, written, rfl⟩
  | .alternative _ guards | .iterative _ guards =>
    have ⟨inner, written⟩ := Guard.exists_writtenAll guards
    ⟨_, inner, written, rfl⟩
  | .block _ _ body =>
    have ⟨inner, written⟩ := Stmt.exists_writtenAll body
    ⟨_, inner, written, rfl⟩
  | .varDecl .. | .arrayDecl .. | .assign .. | .input .. | .print .. | .ret .. | .call .. => ⟨_, rfl⟩

theorem Stmt.exists_writtenAll : (ss : List Stmt) → ∃ ms, Stmt.WrittenAll ss ms
  | [] => ⟨[], rfl⟩
  | s :: ss =>
    have ⟨first, own⟩ := Stmt.exists_written s
    have ⟨rest, others⟩ := Stmt.exists_writtenAll ss
    ⟨_, first, rest, own, others, .inl rfl⟩

theorem Guard.exists_writtenAll : (gs : List Guard) → ∃ ms, Guard.WrittenAll gs ms
  | [] => ⟨[], rfl⟩
  | .mk _ _ body :: gs =>
    have ⟨first, own⟩ := Stmt.exists_written body
    have ⟨rest, others⟩ := Guard.exists_writtenAll gs
    ⟨_, first, rest, own, others, rfl⟩

end

namespace Program

theorem exists_written (p : Program) : ∃ ms, p.Written ms := by
  obtain ⟨inner, written⟩ := Stmt.exists_writtenAll p.body
  exact ⟨_, inner, written, rfl⟩

/-- Tokens leave whatever marks write a program. -/
theorem written_arises (p : Program) {ms : List Mark} (formed : Stmt.WritableAll p.body)
    (written : p.Written ms) : ∀ m ∈ ms, m.Arises := by
  obtain ⟨inner, written, rfl⟩ := written
  exact arises_cons rfl (arises_cons rfl (Stmt.writtenAll_arises p.body formed written))

end Program

end Guarded

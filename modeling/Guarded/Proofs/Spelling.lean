import Guarded.Program.Parse
import Guarded.Proofs.Sequencing
import Guarded.Proofs.Tree
import Mathlib.Data.List.TakeWhile

/-!
What a program spells, and that reading finds just that. A program spells its tokens in order, one
for each keyword, name, literal, operator, separator and bracket. Semicolons are not among them: they
may follow a statement or be left out, and the tree does not keep them. Of a float literal the tree
keeps the single it is rounded to, and no more than that is compared.

Reading a program takes every token up to the end of the text, and the tree it gives spells the
tokens it took. Its operators bind as their precedence says, to the left among equals.

The reader is taken apart once for all that is said about the trees it gives: `Parse.Reads` tells
which tokens a call takes and which numbers it hands out to nodes.
-/

namespace Guarded

/-- A token as far as a tree can tell. -/
inductive Token.Mark where
  | kind (k : Token.Kind)
  /-- A float literal that is rounded to this value. -/
  | single (value : Float32)

namespace Token

def Kind.mark : Kind → Mark
  | .floatLit value => .single (Number.narrow value)
  | k => .kind k

/-- What a token leaves in a tree: semicolons leave nothing. -/
def Kind.marks (k : Kind) : List Mark :=
  if k = .semicolon then [] else [k.mark]

/-- What tokens leave in a tree. -/
def marks (kinds : List Kind) : List Mark :=
  (kinds.filter (· ≠ .semicolon)).map Kind.mark

/-- A token that shows in a tree as it is. -/
def Kind.isShown : Kind → Bool
  | .semicolon | .floatLit _ | .eof => false
  | _ => true

theorem Kind.marks_of_isShown {k : Kind} (shown : k.isShown = true) : k.marks = [.kind k] := by
  cases k <;> first | rfl | cases shown

theorem Kind.ne_eof_of_isShown {k : Kind} (shown : k.isShown = true) : k ≠ .eof := by
  rintro rfl
  cases shown

theorem marks_cons (k : Kind) (ks : List Kind) : marks (k :: ks) = k.marks ++ marks ks := by
  by_cases semicolon : k = .semicolon
  · simp [marks, Kind.marks, semicolon]
  · simp [marks, Kind.marks, semicolon]

theorem marks_append (xs ys : List Kind) : marks (xs ++ ys) = marks xs ++ marks ys := by
  simp [marks]

end Token

namespace BinOp

/-- The token that spells an operator. -/
def token : BinOp → Token.Kind
  | .or => .or
  | .and => .and
  | .eq => .eq
  | .ne => .ne
  | .lt => .lt
  | .gt => .gt
  | .le => .le
  | .ge => .ge
  | .add => .plus
  | .sub => .minus
  | .mul => .star
  | .slash => .slash
  | .div => .div
  | .mod => .mod

theorem eq_token_of_ofToken? {k : Token.Kind} {op : BinOp} (h : ofToken? k = some op) :
    k = op.token := by
  cases k <;> cases h <;> rfl

theorem token_isShown (op : BinOp) : op.token.isShown = true := by
  cases op <;> rfl

end BinOp

def UnOp.token : UnOp → Token.Kind
  | .neg => .minus
  | .not => .tilde

/-- The keyword of a type that can be written. -/
def Ty.token? : Ty → Option Token.Kind
  | .int => some .int
  | .float => some .float
  | .boolean => some .boolean
  | .undefined | .num => none

def Ty.spell (ty : Ty) : List Token.Mark :=
  ty.token?.toList.map .kind

def Ident.mark (name : Ident) : Token.Mark :=
  .kind (.ident name.name)

/-- Items with commas between them. -/
def spellList {α : Type} (spell : α → List Token.Mark) : List α → List Token.Mark
  | [] => []
  | [x] => spell x
  | x :: y :: xs => spell x ++ .kind .comma :: spellList spell (y :: xs)

def Param.spell (p : Param) : List Token.Mark :=
  (p.ty.map Ty.spell).getD [] ++ [p.name.mark]

namespace Expr

mutual

def spell : Expr → List Token.Mark
  | .int _ v => [.kind (.intLit v.toInt)]
  | .float _ v => [.single v]
  | .bool _ b => [.kind (if b then .trueLit else .falseLit)]
  | .var _ name => [name.mark]
  | .index _ array i => array.mark :: .kind .lbracket :: (i.spell ++ [.kind .rbracket])
  | .call _ callee args => callee.mark :: .kind .lparen :: (spellAll args ++ [.kind .rparen])
  | .paren _ inner => .kind .lparen :: (inner.spell ++ [.kind .rparen])
  | .unary _ op operand => .kind op.token :: operand.spell
  | .binary _ op lhs rhs => lhs.spell ++ .kind op.token :: rhs.spell

/-- Expressions with commas between them. -/
def spellAll : List Expr → List Token.Mark
  | [] => []
  | [e] => e.spell
  | e :: e' :: es => e.spell ++ .kind .comma :: spellAll (e' :: es)

end

/-- The operator of an expression that is not in parentheses. -/
def operator? : Expr → Option BinOp
  | .binary _ op _ _ => some op
  | _ => none

/-- The operands of an operator bind at least as tightly as it does, the right one more tightly, and
a prefix operator takes no binary operator along. -/
def Grouped : Expr → Prop
  | .binary _ op lhs rhs =>
    (∀ o, lhs.operator? = some o → op.precedence ≤ o.precedence) ∧
      ∀ o, rhs.operator? = some o → op.precedence < o.precedence
  | .unary _ _ operand => operand.operator? = none
  | _ => True

end Expr

def Target.spell : Target → List Token.Mark
  | .var name => [name.mark]
  | .index array i => array.mark :: .kind .lbracket :: (i.spell ++ [.kind .rbracket])

/-- The heading of a method, up to its block. -/
def spellHead (name : Ident) (params : List Param) (result : Option Ty) : List Token.Mark :=
  .kind (if result.isSome then .fun else .proc) :: name.mark :: .kind .lparen ::
    (spellList Param.spell params ++ .kind .rparen ::
      (result.map fun ty => .kind .colon :: ty.spell).getD [])

mutual

def Stmt.spell : Stmt → List Token.Mark
  | .varDecl _ ty names => ty.spell ++ spellList (fun name => [name.mark]) names
  | .arrayDecl _ ty size names =>
    ty.spell ++ .kind .lbracket :: (size.spell ++ .kind .rbracket ::
      spellList (fun name => [name.mark]) names)
  | .method _ name params result _ body =>
    spellHead name params result ++ .kind .lbrace :: (Stmt.spellAll body ++ [.kind .rbrace])
  | .assign _ targets values =>
    spellList Target.spell targets ++ .kind .assign :: Expr.spellAll values
  | .input _ names => .kind .input :: spellList (fun name => [name.mark]) names
  | .print _ value => .kind .print :: value.spell
  | .alternative _ guards => .kind .if :: (Guard.spellAll guards ++ [.kind .fi])
  | .iterative _ guards => .kind .do :: (Guard.spellAll guards ++ [.kind .od])
  | .block _ _ body => .kind .lbrace :: (Stmt.spellAll body ++ [.kind .rbrace])
  | .ret _ none => [.kind .return]
  | .ret _ (some value) => .kind .return :: value.spell
  | .call _ callee args =>
    callee.mark :: .kind .lparen :: (Expr.spellAll args ++ [.kind .rparen])

def Stmt.spellAll : List Stmt → List Token.Mark
  | [] => []
  | s :: ss => s.spell ++ Stmt.spellAll ss

def Guard.spellAll : List Guard → List Token.Mark
  | [] => []
  | .mk _ cond body :: gs => cond.spell ++ .kind .guard :: (body.spell ++ Guard.spellAll gs)

end

def Program.spell (p : Program) : List Token.Mark :=
  .kind .program :: p.name.mark :: Stmt.spellAll p.body

/-- What reading leaves behind: marks of the tokens it takes, and the numbers it hands out. -/
structure Trace where
  marks : List Token.Mark
  ids : List NodeId

instance : Append Trace :=
  ⟨fun first second => ⟨first.marks ++ second.marks, first.ids ++ second.ids⟩⟩

@[simp]
theorem Trace.mk_append (ms ms' : List Token.Mark) (is is' : List NodeId) :
    (⟨ms, is⟩ ++ ⟨ms', is'⟩ : Trace) = ⟨ms ++ ms', is ++ is'⟩ :=
  rfl

/-- A name is not empty, and all its characters are those of names. -/
def Token.Kind.Named : Token.Kind → Prop
  | .ident name => name.toList ≠ [] ∧ ∀ c ∈ name.toList, isNamePart c = true
  | _ => True

namespace Cursor

/-- Tokens are taken from one cursor to another, none of them the end of the text, and numbers are
handed out one after the other. -/
structure Takes (c c' : Cursor) (tr : Trace) : Prop where
  last : c'.last = c.last
  tokens : ∃ ts, c.ahead = ts ++ c'.ahead ∧ (∀ t ∈ ts, t.kind ≠ .eof) ∧
    Token.marks (ts.map Token.kind) = tr.marks
  next : c'.nextId = c.nextId + tr.ids.length
  numbers : tr.ids = List.range' c.nextId tr.ids.length

/-- The text has an end. If `clean` holds, the names ahead are names; this is not asked of the tokens
otherwise. -/
structure Fit (clean : Prop) (c : Cursor) : Prop where
  closed : c.last.kind = .eof
  named : clean → ∀ t ∈ c.ahead, t.kind.Named

variable {clean : Prop} {c d e : Cursor} {s t : Trace}

theorem Takes.refl (c : Cursor) : c.Takes c ⟨[], []⟩ :=
  ⟨rfl, ⟨[], rfl, by simp, rfl⟩, rfl, rfl⟩

theorem Takes.fresh (c : Cursor) : c.Takes { c with nextId := c.nextId + 1 } ⟨[], [c.nextId]⟩ :=
  ⟨rfl, ⟨[], rfl, by simp, rfl⟩, rfl, rfl⟩

theorem Takes.trans (first : c.Takes d s) (second : d.Takes e t) : c.Takes e (s ++ t) where
  last := second.last.trans first.last
  tokens := by
    obtain ⟨ts, split, noEnd, marks⟩ := first.tokens
    obtain ⟨ts', split', noEnd', marks'⟩ := second.tokens
    refine ⟨ts ++ ts', by rw [split, split', List.append_assoc], ?_, ?_⟩
    · intro t mem
      rcases List.mem_append.mp mem with mem | mem
      · exact noEnd t mem
      · exact noEnd' t mem
    · rw [List.map_append, Token.marks_append, marks, marks']
      rfl
  next := by
    show _ = c.nextId + (s.ids ++ t.ids).length
    rw [second.next, first.next, List.length_append, Nat.add_assoc]
  numbers := by
    show s.ids ++ t.ids = List.range' c.nextId (s.ids ++ t.ids).length
    have glued := List.range'_append_1 (s := c.nextId) (m := s.ids.length) (n := t.ids.length)
    rw [List.length_append, ← glued, ← first.numbers, ← first.next, ← second.numbers]

theorem Fit.after (fit : c.Fit clean) (takes : c.Takes d t) : d.Fit clean := by
  obtain ⟨ts, split, -, -⟩ := takes.tokens
  refine ⟨takes.last ▸ fit.closed, fun h u mem => fit.named h u ?_⟩
  rw [split]
  exact List.mem_append_right _ mem

end Cursor

namespace Parse

/-- If the call succeeds at this cursor, what it leaves behind stands in the relation `post` to what
it gives and to the cursor it stops at. -/
def Reads {α : Type} (clean : Prop) (c : Cursor) (x : Parse α)
    (post : α → Cursor → Trace → Prop) : Prop :=
  c.Fit clean → ∀ a c', x c = .ok a c' → ∃ tr, c.Takes c' tr ∧ post a c' tr

namespace Reads
variable {α β : Type} {clean : Prop} {c : Cursor} {x : Parse α} {f : α → Parse β}
variable {q : α → Cursor → Trace → Prop} {post : β → Cursor → Trace → Prop}

theorem pure {b : β} (h : post b c ⟨[], []⟩) : Reads clean c (Pure.pure b) post := by
  intro _ a c' run
  obtain ⟨rfl, rfl⟩ := lasting_pure_ok.mp run
  exact ⟨_, .refl c, h⟩

theorem bind (first : Reads clean c x q)
    (second : ∀ a c' tr, q a c' tr → Reads clean c' (f a) fun b d more => post b d (tr ++ more)) :
    Reads clean c (x >>= f) post := by
  intro fit b d run
  obtain ⟨a, c', hx, hf⟩ := lasting_bind_ok.mp run
  obtain ⟨tr, takes, ha⟩ := first fit a c' hx
  obtain ⟨more, takes', hb⟩ := second a c' tr ha (fit.after takes) b d hf
  exact ⟨tr ++ more, takes.trans takes', hb⟩

theorem mono (h : Reads clean c x q) {post : α → Cursor → Trace → Prop}
    (imp : ∀ a c' tr, q a c' tr → post a c' tr) : Reads clean c x post := by
  intro fit a c' run
  obtain ⟨tr, takes, ha⟩ := h fit a c' run
  exact ⟨tr, takes, imp a c' tr ha⟩

theorem throw {e : Error} : Reads clean c (MonadExcept.throw e : Parse β) post :=
  fun _ _ _ run => absurd run lasting_throw_ok

theorem discard (h : Reads clean c x q) :
    Reads clean c (Functor.discard x) fun _ c' tr => ∃ a, q a c' tr := by
  intro fit _ c' run
  obtain ⟨a, hx⟩ := lasting_discard_ok.mp run
  obtain ⟨tr, takes, ha⟩ := h fit a c' hx
  exact ⟨tr, takes, a, ha⟩

/-- Looking at the current token takes nothing. -/
theorem look {f : Token.Kind → Parse β} (h : Reads clean c (f c.current.kind) post) :
    Reads clean c (kind >>= f) post :=
  h

theorem place {f : Span → Parse β} (h : Reads clean c (f c.current.span) post) :
    Reads clean c (span >>= f) post :=
  h

theorem state {f : Cursor → Parse β} (h : Reads clean c (f c) post) :
    Reads clean c (get >>= f) post :=
  h

theorem ite {p : Prop} [Decidable p] {y z : Parse β} (hy : p → Reads clean c y post)
    (hz : ¬ p → Reads clean c z post) : Reads clean c (if p then y else z) post := by
  split
  · exact hy ‹_›
  · exact hz ‹_›

end Reads

variable {clean : Prop} {c : Cursor}

theorem unexpected_reads {α : Type} {expected : String} {post : α → Cursor → Trace → Prop} :
    Reads clean c (unexpected expected) post := by
  unfold unexpected
  refine .state ?_
  dsimp only
  split
  · exact .throw
  · exact .throw

/-- Taking a token that is not the end of the text. -/
theorem advance_reads (notEnd : c.current.kind ≠ .eof) : Reads clean c advance fun t _ tr =>
    t = c.current ∧ tr = ⟨c.current.kind.marks, []⟩ ∧ (clean → c.current.kind.Named) := by
  intro fit t c' run
  cases ahead : c.ahead with
  | nil =>
    have current : c.current = c.last := by simp [Cursor.current, ahead]
    exact absurd (current ▸ fit.closed) notEnd
  | cons u rest =>
    have current : c.current = u := by simp [Cursor.current, ahead]
    obtain ⟨rfl, rfl⟩ : u = t ∧ { c with ahead := rest, prev := u.span } = c' := by
      simpa only [ahead] using lasting_modifyGet_ok.mp run
    rw [current] at notEnd ⊢
    refine ⟨_, ⟨rfl, ⟨[u], by simp [ahead], by simpa using notEnd, ?_⟩, rfl, rfl⟩, rfl, rfl,
      fun h => fit.named h u (by simp [ahead])⟩
    rw [List.map_singleton, Token.marks_cons]
    exact List.append_nil _

/-- Taking a token of a kind that has been seen. -/
theorem skip_reads {k : Token.Kind} (here : c.current.kind = k) (shown : k.isShown = true) :
    Reads clean c (discard advance) fun _ _ tr => tr = ⟨[.kind k], []⟩ := by
  subst here
  refine (advance_reads (Token.Kind.ne_eof_of_isShown shown)).discard.mono ?_
  rintro _ _ _ ⟨t, -, rfl, -⟩
  rw [Token.Kind.marks_of_isShown shown]

theorem expect_reads {k : Token.Kind} (shown : k.isShown = true) :
    Reads clean c (expect k) fun _ _ tr => tr = ⟨[.kind k], []⟩ := by
  unfold expect
  exact .look (.ite (fun here => skip_reads here shown) fun _ => unexpected_reads)

theorem consume_reads {k : Token.Kind} (shown : k.isShown = true) :
    Reads clean c (consume k) fun found _ tr => tr = ⟨if found then [.kind k] else [], []⟩ := by
  unfold consume
  refine .look (.ite (fun here => ?_) fun _ => .pure rfl)
  refine (skip_reads here shown).bind ?_
  rintro _ d _ rfl
  exact .pure rfl

/-- A semicolon that may stand here leaves nothing. -/
theorem semicolon_reads :
    Reads clean c (discard (consume .semicolon)) fun _ _ tr => tr = ⟨[], []⟩ := by
  have read : Reads clean c (consume .semicolon) fun _ _ tr => tr = ⟨[], []⟩ := by
    unfold consume
    refine .look (.ite (fun here => ?_) fun _ => .pure rfl)
    refine (advance_reads (by simp [here])).discard.bind ?_
    rintro _ d _ ⟨t, -, rfl, -⟩
    exact .pure (by simp [here, Token.Kind.marks])
  refine read.discard.mono ?_
  rintro _ _ _ ⟨found, rfl⟩
  rfl

theorem freshId_reads :
    Reads clean c freshId fun i c' tr => tr = ⟨[], [i]⟩ ∧ c'.current = c.current := by
  intro _ i c' run
  obtain ⟨rfl, rfl⟩ : c.nextId = i ∧ { c with nextId := c.nextId + 1 } = c' :=
    lasting_modifyGet_ok.mp run
  exact ⟨_, .fresh c, rfl, rfl⟩

/-- Making a node takes a number and leaves the current token where it is. -/
theorem node_reads (start : Span) :
    Reads clean c (node start) fun n c' tr => tr = ⟨[], [n.id]⟩ ∧ c'.current = c.current := by
  unfold node
  refine freshId_reads.bind ?_
  rintro i d _ ⟨rfl, same⟩
  exact .pure ⟨rfl, same⟩

theorem join_reads (a b : Span) :
    Reads clean c (join a b) fun n c' tr => tr = ⟨[], [n.id]⟩ ∧ c'.current = c.current := by
  unfold join
  refine freshId_reads.bind ?_
  rintro i d _ ⟨rfl, same⟩
  exact .pure ⟨rfl, same⟩

theorem ident_reads : Reads clean c ident fun name _ tr =>
    tr = ⟨[name.mark], [name.id]⟩ ∧ (clean → (Token.Kind.ident name.name).Named) := by
  unfold ident
  refine .look ?_
  split
  · rename_i name here
    refine (advance_reads (by simp [here])).bind ?_
    rintro t d _ ⟨-, rfl, named⟩
    refine freshId_reads.bind ?_
    rintro i e _ ⟨rfl, -⟩
    exact .pure ⟨by simp [here, Token.Kind.marks, Token.Kind.mark, Ident.mark], here ▸ named⟩
  · exact unexpected_reads
  · exact .place .throw

theorem type_reads : Reads clean c type fun ty _ tr =>
    tr = ⟨ty.spell, []⟩ ∧ ty.isTerminal = true := by
  unfold type
  refine .look ?_
  extract_lets rest
  have after : ∀ (ty : Ty) (k : Token.Kind), c.current.kind = k → ty.spell = [.kind k] →
      k.isShown = true → ty.isTerminal = true →
      Reads clean c (rest ty) fun ty _ tr => tr = ⟨ty.spell, []⟩ ∧ ty.isTerminal = true := by
    intro ty k here spells shown terminal
    refine (skip_reads here shown).bind ?_
    rintro _ d _ rfl
    exact .pure ⟨by simp [spells], terminal⟩
  split
  · exact after .int .int ‹_› rfl rfl rfl
  · exact after .float .float ‹_› rfl rfl rfl
  · exact after .boolean .boolean ‹_› rfl rfl rfl
  · exact .place (Reads.bind (q := fun _ _ _ => False) .throw nofun)

/-- After one item comes the end of a list or a comma and more of it. -/
theorem spellList_cons {α : Type} (spell : α → List Token.Mark) (x : α) {xs : List α}
    (some : xs ≠ []) :
    spellList spell (x :: xs) = spell x ++ .kind .comma :: spellList spell xs := by
  obtain ⟨y, ys, rfl⟩ := List.exists_cons_of_ne_nil some
  rfl

theorem idents_reads (fuel : Nat) : Reads clean c (idents fuel) fun names _ tr =>
    names ≠ [] ∧ tr = ⟨spellList (fun name => [name.mark]) names, names.map Ident.id⟩ := by
  induction fuel generalizing c with
  | zero => exact unexpected_reads
  | succ fuel ih =>
    unfold idents
    refine ident_reads.bind ?_
    rintro name d _ ⟨rfl, -⟩
    refine (consume_reads rfl).bind ?_
    rintro more e _ rfl
    refine .ite (fun isMore => ih.bind ?_) fun isLast => ?_
    · rintro names g _ ⟨some, rfl⟩
      exact .pure ⟨by simp, by simp [isMore, spellList_cons _ _ some]⟩
    · exact .pure ⟨by simp, by simp [isLast, spellList]⟩

theorem params_reads (fuel : Nat) : Reads clean c (params fuel) fun ps _ tr =>
    ps ≠ [] ∧ tr = ⟨spellList Param.spell ps, ps.map (·.name.id)⟩ ∧ ∀ p ∈ ps, p.Proper := by
  induction fuel generalizing c with
  | zero => exact unexpected_reads
  | succ fuel ih =>
    unfold params
    refine .look ?_
    extract_lets rest
    have after : ∀ (ty : Option Ty) (d : Cursor), (∀ t, ty = some t → t.isTerminal = true) →
        Reads clean d (rest ty) fun ps _ tr => ps ≠ [] ∧
          ⟨(ty.map Ty.spell).getD [], []⟩ ++ tr =
            ⟨spellList Param.spell ps, ps.map (·.name.id)⟩ ∧ ∀ p ∈ ps, p.Proper := by
      intro ty d terminal
      refine ident_reads.bind ?_
      rintro name e _ ⟨rfl, -⟩
      refine (consume_reads rfl).bind ?_
      rintro more g _ rfl
      refine .ite (fun isMore => ih.bind ?_) fun isLast => ?_
      · rintro ps h _ ⟨some, rfl, proper⟩
        refine .pure ⟨by simp, by simp [isMore, spellList_cons _ _ some, Param.spell], ?_⟩
        exact List.forall_mem_cons.mpr ⟨terminal, proper⟩
      · exact .pure ⟨by simp, by simp [isLast, spellList, Param.spell],
          by simpa [Param.Proper] using terminal⟩
    refine .ite (fun _ => ?_) fun _ => after none c (by simp)
    rw [bind_map_left]
    refine type_reads.bind ?_
    rintro ty d _ ⟨rfl, terminal⟩
    exact after (some ty) d (by simpa using terminal)

/-- A value of 32 bits is the integer it was made from. -/
theorem intValue_reads (value : Int) (span : Span) :
    Reads clean c (intValue value span) fun v _ tr => tr = ⟨[], []⟩ ∧ v.toInt = value := by
  unfold intValue
  refine .ite (fun fits => .pure ⟨rfl, ?_⟩) fun _ => .throw
  simp only [Bool.and_eq_true, decide_eq_true_eq] at fits
  exact Int32.toInt_ofInt_of_le fits.1 fits.2

theorem floatValue_reads (value : Float) (span : Span) :
    Reads clean c (floatValue value span) fun v _ tr =>
      tr = ⟨[], []⟩ ∧ v = Number.narrow value ∧ v.isFinite = true := by
  unfold floatValue
  exact .ite (fun finite => .pure ⟨rfl, rfl, finite⟩) fun _ => .throw

/-- Every expression in the list is grouped, and every float literal is finite. -/
def AllSound (es : List Expr) : Prop :=
  ∀ e ∈ es, e.Grouped ∧ ∀ n v, e = .float n v → v.isFinite = true

theorem AllSound.nil : AllSound [] := by
  simp [AllSound]

theorem AllSound.append {xs ys : List Expr} (left : AllSound xs) (right : AllSound ys) :
    AllSound (xs ++ ys) := by
  intro e mem
  rcases List.mem_append.mp mem with mem | mem
  · exact left e mem
  · exact right e mem

theorem AllSound.single {e : Expr} (own : e.Grouped) (other : ∀ n v, e ≠ .float n v) :
    AllSound [e] := by
  intro e' mem
  obtain rfl := List.mem_singleton.mp mem
  exact ⟨own, fun n v same => absurd same (other n v)⟩

/-- The operator of the expression, outside of parentheses, binds more tightly than `min`. -/
def Above (min : Nat) (e : Expr) : Prop :=
  ∀ o, e.operator? = some o → min < o.precedence

/-- No operator that binds more tightly than `limit` comes next. -/
def StopsAt (limit : Nat) (c : Cursor) : Prop :=
  ∀ o, BinOp.ofToken? c.current.kind = some o → o.precedence ≤ limit

/-- An operand that no operator follows into. -/
def Operand (e : Expr) (_ : Cursor) (tr : Trace) : Prop :=
  tr = ⟨e.spell, e.ids⟩ ∧ AllSound e.parts ∧ e.operator? = none

/-- What the expression functions read, all with the same fuel. The loop over operators goes on from
a left operand that lets through no operator tighter than its own. -/
structure ExprReads (clean : Prop) (fuel : Nat) : Prop where
  binary (c : Cursor) (min : Nat) : Reads clean c (binary fuel min) fun e d tr =>
    tr = ⟨e.spell, e.ids⟩ ∧ AllSound e.parts ∧ Above min e ∧ StopsAt min d
  climb (c : Cursor) (min : Nat) (lhs : Expr) : AllSound lhs.parts → Above min lhs →
    (∀ o, lhs.operator? = some o → StopsAt o.precedence c) →
    Reads clean c (climb fuel min lhs) fun e d tr =>
      ⟨lhs.spell, lhs.ids⟩ ++ tr = ⟨e.spell, e.ids⟩ ∧ AllSound e.parts ∧ Above min e ∧
        StopsAt min d
  unary (c : Cursor) : Reads clean c (unary fuel) Operand
  signed (c : Cursor) (op : UnOp) : c.current.kind = op.token →
    Reads clean c (signed fuel op) Operand
  primary (c : Cursor) : Reads clean c (primary fuel) Operand
  args (c : Cursor) : Reads clean c (args fuel) fun es _ tr =>
    tr = ⟨.kind .lparen :: (Expr.spellAll es ++ [.kind .rparen]), Expr.idsAll es⟩ ∧
      AllSound (Expr.partsAll es)
  exprs (c : Cursor) : Reads clean c (exprs fuel) fun es _ tr =>
    es ≠ [] ∧ tr = ⟨Expr.spellAll es, Expr.idsAll es⟩ ∧ AllSound (Expr.partsAll es)

/-- A node around what has been read already. -/
theorem wrap_reads {α : Type} {c : Cursor} {start : Span} {build : Node → α}
    {q : α → Cursor → Trace → Prop} (own : ∀ n d, q (build n) d ⟨[], [n.id]⟩) :
    Reads clean c (do return build (← node start)) q := by
  refine (node_reads start).bind ?_
  rintro n d _ ⟨rfl, -⟩
  exact .pure (own n d)

namespace ExprReads
variable {fuel : Nat} (ih : ExprReads clean fuel)
include ih

theorem binary_succ (c : Cursor) (min : Nat) :
    Reads clean c (Parse.binary (fuel + 1) min) fun e d tr =>
      tr = ⟨e.spell, e.ids⟩ ∧ AllSound e.parts ∧ Above min e ∧ StopsAt min d := by
  unfold Parse.binary
  refine (ih.unary c).bind ?_
  rintro lhs d _ ⟨rfl, sound, atom⟩
  exact ih.climb d min lhs sound (by simp [Above, atom]) (by simp [atom])

theorem climb_succ (c : Cursor) (min : Nat) (lhs : Expr) (sound : AllSound lhs.parts)
    (above : Above min lhs) (stops : ∀ o, lhs.operator? = some o → StopsAt o.precedence c) :
    Reads clean c (Parse.climb (fuel + 1) min lhs) fun e d tr =>
      ⟨lhs.spell, lhs.ids⟩ ++ tr = ⟨e.spell, e.ids⟩ ∧ AllSound e.parts ∧ Above min e ∧
        StopsAt min d := by
  unfold Parse.climb
  refine .look ?_
  split
  · rename_i noOperator
    exact .pure ⟨by simp, sound, above, by simp [StopsAt, noOperator]⟩
  · rename_i op found
    refine .ite (fun loose => ?_) fun tight => ?_
    · exact .pure ⟨by simp, sound, above, by simpa [StopsAt, found] using loose⟩
    refine (skip_reads (BinOp.eq_token_of_ofToken? found) op.token_isShown).bind ?_
    rintro _ d _ rfl
    refine (ih.binary d op.precedence).bind ?_
    rintro rhs e _ ⟨rfl, sound', above', stops'⟩
    refine (join_reads _ _).bind ?_
    rintro node g _ ⟨rfl, same⟩
    have own : (Expr.binary node op lhs rhs).Grouped := ⟨fun o ho => stops o ho op found, above'⟩
    have tighter : Above min (.binary node op lhs rhs) := by
      intro o ho
      obtain rfl : op = o := Option.some.inj ho
      exact Nat.lt_of_not_le tight
    have here : ∀ o, (Expr.binary node op lhs rhs).operator? = some o →
        StopsAt o.precedence g := by
      intro o ho
      obtain rfl : op = o := Option.some.inj ho
      rw [StopsAt, same]
      exact stops'
    refine (ih.climb g min _ ?_ tighter here).mono ?_
    · rw [Expr.parts]
      exact (sound.append sound').append (.single own nofun)
    · rintro e' _ ⟨ms, is⟩ ⟨spells, rest⟩
      exact ⟨by rw [← spells]; simp [Expr.spell, Expr.ids], rest⟩

theorem unary_succ (c : Cursor) : Reads clean c (Parse.unary (fuel + 1)) Operand := by
  unfold Parse.unary
  refine .look ?_
  split
  · exact ih.signed c .neg ‹_›
  · exact ih.signed c .not ‹_›
  · exact ih.primary c

theorem signed_succ (c : Cursor) (op : UnOp) (here : c.current.kind = op.token) :
    Reads clean c (Parse.signed (fuel + 1) op) Operand := by
  have shown : op.token.isShown = true := by cases op <;> rfl
  unfold Parse.signed
  refine (advance_reads (here ▸ Token.Kind.ne_eof_of_isShown shown)).bind ?_
  rintro t d _ ⟨-, rfl, -⟩
  refine (ih.unary d).bind ?_
  rintro operand e _ ⟨rfl, sound, atom⟩
  refine (join_reads _ _).bind ?_
  rintro node g _ ⟨rfl, -⟩
  refine .pure ⟨?_, ?_, rfl⟩
  · simp [here, Token.Kind.marks_of_isShown shown, Expr.spell, Expr.ids]
  · rw [Expr.parts]
    exact sound.append (.single atom nofun)

theorem primary_succ (c : Cursor) : Reads clean c (Parse.primary (fuel + 1)) Operand := by
  unfold Parse.primary
  refine .place (.look ?_)
  split
  · rename_i value here
    refine (skip_reads here rfl).bind ?_
    rintro _ d _ rfl
    refine (intValue_reads value _).bind ?_
    rintro v e _ ⟨rfl, rfl⟩
    refine wrap_reads fun n _ => ?_
    exact ⟨rfl, .single trivial nofun, rfl⟩
  · rename_i value here
    refine (advance_reads (by simp [here])).discard.bind ?_
    rintro _ d _ ⟨t, -, rfl, -⟩
    refine (floatValue_reads value _).bind ?_
    rintro v e _ ⟨rfl, rfl, finite⟩
    refine wrap_reads fun n _ => ⟨?_, fun e' mem => ?_, rfl⟩
    · simp [here, Token.Kind.marks, Token.Kind.mark, Expr.spell, Expr.ids]
    · obtain rfl := List.mem_singleton.mp mem
      exact ⟨trivial, fun n' v' same => (Expr.float.inj same).2 ▸ finite⟩
  · refine (skip_reads ‹_› rfl).bind ?_
    rintro _ d _ rfl
    refine wrap_reads fun n _ => ?_
    exact ⟨rfl, .single trivial nofun, rfl⟩
  · refine (skip_reads ‹_› rfl).bind ?_
    rintro _ d _ rfl
    refine wrap_reads fun n _ => ?_
    exact ⟨rfl, .single trivial nofun, rfl⟩
  · refine ident_reads.bind ?_
    rintro name d _ ⟨rfl, -⟩
    refine .look (.ite (fun _ => ?_) fun _ => ?_)
    · refine (ih.args d).bind ?_
      rintro args e _ ⟨rfl, sound⟩
      refine wrap_reads fun n _ => ?_
      exact ⟨by simp [Expr.spell, Expr.ids], sound.append (.single trivial nofun), rfl⟩
    · refine (consume_reads rfl).bind ?_
      rintro bracket e _ rfl
      refine .ite (fun isIndex => ?_) fun isVar => ?_
      · refine (ih.binary e 0).bind ?_
        rintro index g _ ⟨rfl, sound, -, -⟩
        refine (expect_reads rfl).bind ?_
        rintro _ h _ rfl
        refine wrap_reads fun n _ => ?_
        exact ⟨by simp [isIndex, Expr.spell, Expr.ids], sound.append (.single trivial nofun), rfl⟩
      · refine wrap_reads fun n _ => ?_
        exact ⟨by simp [isVar, Expr.spell, Expr.ids], .single trivial nofun, rfl⟩
  · refine (skip_reads ‹_› rfl).bind ?_
    rintro _ d _ rfl
    refine (ih.binary d 0).bind ?_
    rintro inner e _ ⟨rfl, sound, -, -⟩
    refine (expect_reads rfl).bind ?_
    rintro _ g _ rfl
    refine wrap_reads fun n _ => ?_
    exact ⟨by simp [Expr.spell, Expr.ids], sound.append (.single trivial nofun), rfl⟩
  · exact unexpected_reads
  · exact .throw

theorem args_succ (c : Cursor) : Reads clean c (Parse.args (fuel + 1)) fun es _ tr =>
    tr = ⟨.kind .lparen :: (Expr.spellAll es ++ [.kind .rparen]), Expr.idsAll es⟩ ∧
      AllSound (Expr.partsAll es) := by
  unfold Parse.args
  refine (expect_reads rfl).bind ?_
  rintro _ d _ rfl
  refine .look ?_
  extract_lets rest
  have after : ∀ (es : List Expr) (e : Cursor),
      Reads clean e (rest es) fun es' _ tr => es' = es ∧ tr = ⟨[.kind .rparen], []⟩ := by
    intro es e
    refine (expect_reads rfl).bind ?_
    rintro _ g _ rfl
    exact .pure ⟨rfl, rfl⟩
  refine .ite (fun _ => (after [] d).mono ?_) fun _ => (ih.exprs d).bind ?_
  · rintro es _ _ ⟨rfl, rfl⟩
    exact ⟨rfl, .nil⟩
  · rintro es e _ ⟨-, rfl, sound⟩
    refine (after es e).mono ?_
    rintro es' _ _ ⟨rfl, rfl⟩
    exact ⟨by simp, sound⟩

theorem exprs_succ (c : Cursor) : Reads clean c (Parse.exprs (fuel + 1)) fun es _ tr =>
    es ≠ [] ∧ tr = ⟨Expr.spellAll es, Expr.idsAll es⟩ ∧ AllSound (Expr.partsAll es) := by
  unfold Parse.exprs
  refine (ih.binary c 0).bind ?_
  rintro e d _ ⟨rfl, sound, -, -⟩
  refine (consume_reads rfl).bind ?_
  rintro more g _ rfl
  refine .ite (fun isMore => (ih.exprs g).bind ?_) fun isLast => ?_
  · rintro es h _ ⟨some, rfl, sound'⟩
    obtain ⟨e', es, rfl⟩ := List.exists_cons_of_ne_nil some
    exact .pure ⟨by simp, by simp [isMore, Expr.spellAll, Expr.idsAll], sound.append sound'⟩
  · exact .pure ⟨by simp, by simp [isLast, Expr.spellAll, Expr.idsAll], sound.append .nil⟩

end ExprReads

theorem expr_reads (fuel : Nat) : ExprReads clean fuel := by
  induction fuel with
  | zero =>
    exact ⟨fun _ _ => unexpected_reads, fun _ _ _ _ _ _ => unexpected_reads,
      fun _ => unexpected_reads, fun _ _ _ => unexpected_reads, fun _ => unexpected_reads,
      fun _ => unexpected_reads, fun _ => unexpected_reads⟩
  | succ fuel ih =>
    exact ⟨ih.binary_succ, ih.climb_succ, ih.unary_succ, ih.signed_succ, ih.primary_succ,
      ih.args_succ, ih.exprs_succ⟩

theorem target_reads (fuel : Nat) : Reads clean c (target fuel) fun t _ tr =>
    tr = ⟨t.spell, t.ids⟩ ∧ AllSound t.exprs := by
  unfold target
  refine ident_reads.bind ?_
  rintro name d _ ⟨rfl, -⟩
  refine (consume_reads rfl).bind ?_
  rintro bracket e _ rfl
  refine .ite (fun isIndex => ?_) fun isVar => ?_
  · refine ((expr_reads fuel).binary e 0).bind ?_
    rintro index g _ ⟨rfl, sound, -, -⟩
    refine (expect_reads rfl).bind ?_
    rintro _ h _ rfl
    exact .pure ⟨by simp [isIndex, Target.spell, Target.ids], sound⟩
  · exact .pure ⟨by simp [isVar, Target.spell, Target.ids], .nil⟩

theorem targets_reads (fuel : Nat) : Reads clean c (targets fuel) fun ts _ tr =>
    ts ≠ [] ∧ tr = ⟨spellList Target.spell ts, Target.idsAll ts⟩ ∧
      AllSound (Target.exprsAll ts) := by
  induction fuel generalizing c with
  | zero => exact unexpected_reads
  | succ fuel ih =>
    unfold targets
    refine (target_reads fuel).bind ?_
    rintro t d _ ⟨rfl, sound⟩
    refine (consume_reads rfl).bind ?_
    rintro more e _ rfl
    refine .ite (fun isMore => ih.bind ?_) fun isLast => ?_
    · rintro ts g _ ⟨some, rfl, sound'⟩
      exact .pure ⟨by simp, by simp [isMore, spellList_cons _ _ some, Target.idsAll],
        sound.append sound'⟩
    · exact .pure ⟨by simp, by simp [isLast, spellList, Target.idsAll], sound.append .nil⟩

/-- A statement has been read, but for its node. -/
def Awaits (clean : Prop) (build : Node → Stmt) (_ : Cursor) (tr : Trace) : Prop :=
  ∀ n, tr ++ ⟨[], [n.id]⟩ = ⟨(build n).spell, (build n).ids⟩ ∧ AllSound (build n).exprs ∧
    (clean → (build n).Proper)

theorem declaration_reads (fuel : Nat) : Reads clean c (declaration fuel) (Awaits clean) := by
  unfold declaration
  refine type_reads.bind ?_
  rintro ty d _ ⟨rfl, terminal⟩
  refine (consume_reads rfl).bind ?_
  rintro bracket e _ rfl
  refine .ite (fun isArray => ?_) fun isVar => ?_
  · refine ((expr_reads fuel).binary e 0).bind ?_
    rintro size g _ ⟨rfl, sound, -, -⟩
    refine (expect_reads rfl).bind ?_
    rintro _ h _ rfl
    refine (idents_reads fuel).bind ?_
    rintro names i _ ⟨-, rfl⟩
    exact .pure fun n => ⟨by simp [isArray, Stmt.spell, Stmt.ids], sound, fun _ => terminal⟩
  · refine (idents_reads fuel).bind ?_
    rintro names g _ ⟨-, rfl⟩
    exact .pure fun n => ⟨by simp [isVar, Stmt.spell, Stmt.ids], .nil, fun _ => terminal⟩

theorem assignment_reads (fuel : Nat) : Reads clean c (assignment fuel) (Awaits clean) := by
  unfold assignment
  refine (targets_reads fuel).bind ?_
  rintro targets d _ ⟨-, rfl, sound⟩
  refine (expect_reads rfl).bind ?_
  rintro _ e _ rfl
  refine ((expr_reads fuel).exprs e).bind ?_
  rintro values g _ ⟨-, rfl, sound'⟩
  exact .pure fun n => ⟨by simp [Stmt.spell, Stmt.ids], sound.append sound', fun _ => trivial⟩

/-- The keyword of a method. -/
def methodToken (function : Bool) : Token.Kind :=
  if function then .fun else .proc

theorem signature_reads (fuel : Nat) (function : Bool)
    (here : c.current.kind = methodToken function) :
    Reads clean c (signature fuel function) fun head _ tr =>
      tr = ⟨spellHead head.1 head.2.1 head.2.2, head.1.id :: head.2.1.map (·.name.id)⟩ ∧
        (clean → (Token.Kind.ident head.1.name).Named) ∧ (∀ p ∈ head.2.1, p.Proper) ∧
        ∀ ty, head.2.2 = some ty → ty.isTerminal = true := by
  have shown : (methodToken function).isShown = true := by cases function <;> rfl
  unfold signature
  refine (skip_reads here shown).bind ?_
  rintro _ d _ rfl
  refine ident_reads.bind ?_
  rintro name e _ ⟨rfl, named⟩
  refine (expect_reads rfl).bind ?_
  rintro _ g _ rfl
  refine .look ?_
  extract_lets rest
  have after : ∀ (ps : List Param) (d : Cursor), Reads clean d (rest ps) fun head _ tr =>
      head.1 = name ∧ head.2.1 = ps ∧
        ⟨[.kind (methodToken function), name.mark, .kind .lparen] ++ spellList Param.spell ps,
          []⟩ ++ tr = ⟨spellHead name ps head.2.2, []⟩ ∧
        ∀ ty, head.2.2 = some ty → ty.isTerminal = true := by
    intro ps d
    refine (expect_reads rfl).bind ?_
    rintro _ e _ rfl
    refine .ite (fun isFunction => ?_) fun isProcedure => ?_
    · refine (expect_reads rfl).bind ?_
      rintro _ g _ rfl
      refine type_reads.bind ?_
      rintro ty h _ ⟨rfl, terminal⟩
      exact .pure ⟨rfl, rfl, by simp [isFunction, methodToken, spellHead], by simpa using terminal⟩
    · exact .pure ⟨rfl, rfl, by simp [isProcedure, methodToken, spellHead], by simp⟩
  refine .ite (fun _ => (after [] g).mono ?_) fun _ => (params_reads fuel).bind ?_
  · rintro ⟨_, _, result⟩ _ ⟨ms, is⟩ ⟨rfl, rfl, spells, terminal⟩
    exact ⟨by simpa [spellList] using spells, named, by simp, terminal⟩
  · rintro ps h _ ⟨-, rfl, proper⟩
    refine (after ps h).mono ?_
    rintro ⟨_, _, result⟩ _ ⟨ms, is⟩ ⟨rfl, rfl, spells, terminal⟩
    exact ⟨by simpa using spells, named, proper, terminal⟩

/-- What the statement functions read, all with the same fuel. Statements stop at the token that
closes them or at the end of the text. -/
structure StmtReads (clean : Prop) (fuel : Nat) : Prop where
  stmt (c : Cursor) : Reads clean c (stmt fuel) fun s _ tr =>
    tr = ⟨s.spell, s.ids⟩ ∧ AllSound s.exprs ∧ (clean → s.Proper)
  form (c : Cursor) : Reads clean c (form fuel) (Awaits clean)
  method (c : Cursor) (function : Bool) : c.current.kind = methodToken function →
    Reads clean c (method fuel function) (Awaits clean)
  block (c : Cursor) : Reads clean c (block fuel) fun b _ tr =>
    tr = ⟨.kind .lbrace :: (Stmt.spellAll b.2 ++ [.kind .rbrace]), Stmt.idsAll b.2 ++ [b.1.id]⟩ ∧
      AllSound (Stmt.exprsAll b.2) ∧ (clean → Stmt.ProperAll b.2)
  stmts (c : Cursor) (close : Token.Kind) : Reads clean c (stmts fuel close) fun ss d tr =>
    tr = ⟨Stmt.spellAll ss, Stmt.idsAll ss⟩ ∧ AllSound (Stmt.exprsAll ss) ∧
      (clean → Stmt.ProperAll ss) ∧ (d.current.kind = close ∨ d.current.kind = .eof)
  guards (c : Cursor) (close : Token.Kind) : close.isShown = true →
    Reads clean c (guards fuel close) fun gs _ tr =>
      tr = ⟨Guard.spellAll gs ++ [.kind close], Guard.idsAll gs⟩ ∧
        AllSound (Guard.exprsAll gs) ∧ (clean → Guard.ProperAll gs)

namespace StmtReads
variable {fuel : Nat} (ih : StmtReads clean fuel)
include ih

theorem stmt_succ (c : Cursor) : Reads clean c (Parse.stmt (fuel + 1)) fun s _ tr =>
    tr = ⟨s.spell, s.ids⟩ ∧ AllSound s.exprs ∧ (clean → s.Proper) := by
  unfold Parse.stmt
  refine .place ((ih.form c).bind ?_)
  intro build d tr awaits
  exact wrap_reads fun n _ => awaits n

theorem form_succ (c : Cursor) : Reads clean c (Parse.form (fuel + 1)) (Awaits clean) := by
  unfold Parse.form
  refine .look ?_
  split
  · exact declaration_reads fuel
  · exact declaration_reads fuel
  · exact declaration_reads fuel
  · exact ih.method c false ‹_›
  · exact ih.method c true ‹_›
  · refine .state (.ite (fun _ => ?_) fun _ => assignment_reads fuel)
    refine ident_reads.bind ?_
    rintro callee d _ ⟨rfl, -⟩
    refine ((expr_reads fuel).args d).bind ?_
    rintro args e _ ⟨rfl, sound⟩
    exact .pure fun n => ⟨by simp [Stmt.spell, Stmt.ids], sound, fun _ => trivial⟩
  · refine (skip_reads ‹_› rfl).bind ?_
    rintro _ d _ rfl
    refine (idents_reads fuel).bind ?_
    rintro names e _ ⟨-, rfl⟩
    exact .pure fun n => ⟨by simp [Stmt.spell, Stmt.ids], .nil, fun _ => trivial⟩
  · refine (skip_reads ‹_› rfl).bind ?_
    rintro _ d _ rfl
    refine ((expr_reads fuel).binary d 0).bind ?_
    rintro value e _ ⟨rfl, sound, -, -⟩
    exact .pure fun n => ⟨by simp [Stmt.spell, Stmt.ids], sound, fun _ => trivial⟩
  · refine (skip_reads ‹_› rfl).bind ?_
    rintro _ d _ rfl
    refine (ih.guards d .fi rfl).bind ?_
    rintro guards e _ ⟨rfl, sound, proper⟩
    exact .pure fun n => ⟨by simp [Stmt.spell, Stmt.ids], sound, proper⟩
  · refine (skip_reads ‹_› rfl).bind ?_
    rintro _ d _ rfl
    refine (ih.guards d .od rfl).bind ?_
    rintro guards e _ ⟨rfl, sound, proper⟩
    exact .pure fun n => ⟨by simp [Stmt.spell, Stmt.ids], sound, proper⟩
  · refine (ih.block c).bind ?_
    rintro ⟨inner, body⟩ d _ ⟨rfl, sound, proper⟩
    exact .pure fun n => ⟨by simp [Stmt.spell, Stmt.ids], sound, proper⟩
  · refine (skip_reads ‹_› rfl).bind ?_
    rintro _ d _ rfl
    refine .look (.ite (fun _ => ?_) fun _ => ?_)
    · refine ((expr_reads fuel).binary d 0).bind ?_
      rintro value e _ ⟨rfl, sound, -, -⟩
      exact .pure fun n => ⟨by simp [Stmt.spell, Stmt.ids], sound, fun _ => trivial⟩
    · exact .pure fun n => ⟨by simp [Stmt.spell, Stmt.ids], .nil, fun _ => trivial⟩
  · exact unexpected_reads

theorem method_succ (c : Cursor) (function : Bool)
    (here : c.current.kind = methodToken function) :
    Reads clean c (Parse.method (fuel + 1) function) (Awaits clean) := by
  unfold Parse.method
  refine (signature_reads fuel function here).bind ?_
  rintro ⟨name, params, result⟩ d _ ⟨rfl, named, types, terminal⟩
  refine (ih.block d).bind ?_
  rintro ⟨inner, body⟩ e _ ⟨rfl, sound, proper⟩
  refine .pure fun n => ⟨by simp [Stmt.spell, Stmt.ids], sound, fun h => ?_⟩
  exact ⟨fun mem => absurd ((named h).2 _ mem) (by decide), types, terminal, proper h⟩

theorem block_succ (c : Cursor) : Reads clean c (Parse.block (fuel + 1)) fun b _ tr =>
    tr = ⟨.kind .lbrace :: (Stmt.spellAll b.2 ++ [.kind .rbrace]), Stmt.idsAll b.2 ++ [b.1.id]⟩ ∧
      AllSound (Stmt.exprsAll b.2) ∧ (clean → Stmt.ProperAll b.2) := by
  unfold Parse.block
  refine .place ((expect_reads rfl).bind ?_)
  rintro _ d _ rfl
  refine (ih.stmts d .rbrace).bind ?_
  rintro body e _ ⟨rfl, sound, proper, -⟩
  refine (expect_reads rfl).bind ?_
  rintro _ g _ rfl
  exact wrap_reads fun n _ => ⟨by simp, sound, proper⟩

theorem stmts_succ (c : Cursor) (close : Token.Kind) :
    Reads clean c (Parse.stmts (fuel + 1) close) fun ss d tr =>
      tr = ⟨Stmt.spellAll ss, Stmt.idsAll ss⟩ ∧ AllSound (Stmt.exprsAll ss) ∧
        (clean → Stmt.ProperAll ss) ∧ (d.current.kind = close ∨ d.current.kind = .eof) := by
  unfold Parse.stmts
  refine .look (.ite (fun stop => ?_) fun _ => (ih.stmt c).bind ?_)
  · exact .pure ⟨rfl, .nil, fun _ => trivial, by simpa using stop⟩
  · rintro s d _ ⟨rfl, sound, proper⟩
    refine semicolon_reads.bind ?_
    rintro _ e _ rfl
    refine (ih.stmts e close).bind ?_
    rintro ss g _ ⟨rfl, sound', proper', stop⟩
    exact .pure ⟨by simp [Stmt.spellAll, Stmt.idsAll], sound.append sound',
      fun h => ⟨proper h, proper' h⟩, stop⟩

theorem guards_succ (c : Cursor) (close : Token.Kind) (shown : close.isShown = true) :
    Reads clean c (Parse.guards (fuel + 1) close) fun gs _ tr =>
      tr = ⟨Guard.spellAll gs ++ [.kind close], Guard.idsAll gs⟩ ∧
        AllSound (Guard.exprsAll gs) ∧ (clean → Guard.ProperAll gs) := by
  unfold Parse.guards
  refine .place (((expr_reads fuel).binary c 0).bind ?_)
  rintro cond d _ ⟨rfl, sound, -, -⟩
  refine (expect_reads rfl).bind ?_
  rintro _ e _ rfl
  refine (ih.stmt e).bind ?_
  rintro body g _ ⟨rfl, sound', proper⟩
  refine semicolon_reads.bind ?_
  rintro _ h _ rfl
  refine (node_reads _).bind ?_
  rintro n i _ ⟨rfl, -⟩
  refine (consume_reads shown).bind ?_
  rintro found j _ rfl
  refine .ite (fun isClosed => ?_) fun isOpen => .look (.ite (fun _ => unexpected_reads) fun _ => ?_)
  · exact .pure ⟨by simp [isClosed, Guard.spellAll, Guard.idsAll],
      (sound.append sound').append .nil, fun h => ⟨proper h, trivial⟩⟩
  · refine (ih.guards j close shown).bind ?_
    rintro gs k _ ⟨rfl, rest, proper'⟩
    exact .pure ⟨by simp [isOpen, Guard.spellAll, Guard.idsAll],
      (sound.append sound').append rest, fun h => ⟨proper h, proper' h⟩⟩

end StmtReads

theorem stmt_reads (fuel : Nat) : StmtReads clean fuel := by
  induction fuel with
  | zero =>
    exact ⟨fun _ => unexpected_reads, fun _ => unexpected_reads, fun _ _ _ => unexpected_reads,
      fun _ => unexpected_reads, fun _ _ => unexpected_reads, fun _ _ _ => unexpected_reads⟩
  | succ fuel ih =>
    exact ⟨ih.stmt_succ, ih.form_succ, ih.method_succ, ih.block_succ, ih.stmts_succ,
      ih.guards_succ⟩

/-- A program takes all tokens up to the end of the text. -/
theorem program_reads (fuel : Nat) : Reads clean c (program fuel) fun p d tr =>
    tr = ⟨p.spell, p.ids⟩ ∧ d.current.kind = .eof ∧ AllSound p.exprs ∧
      (clean → (Token.Kind.ident p.name.name).Named ∧ Stmt.ProperAll p.body) := by
  unfold program
  refine .place ((expect_reads rfl).bind ?_)
  rintro _ d _ rfl
  refine ident_reads.bind ?_
  rintro name e _ ⟨rfl, named⟩
  refine ((stmt_reads fuel).stmts e .eof).bind ?_
  rintro body g _ ⟨rfl, sound, proper, stop⟩
  exact .pure ⟨by simp [Program.spell, Program.ids], by simpa using stop, sound,
    fun h => ⟨named h, proper h⟩⟩

end Parse

namespace Cursor

/-- Tokens taken up to the end of the text are all those before it. -/
theorem Takes.marks_eq {c d : Cursor} {tr : Trace} (takes : c.Takes d tr)
    (stop : d.current.kind = .eof) :
    Token.marks ((c.ahead.map Token.kind).takeWhile (· ≠ .eof)) = tr.marks := by
  obtain ⟨ts, split, noEnd, marks⟩ := takes.tokens
  have rest : (d.ahead.map Token.kind).takeWhile (· ≠ .eof) = [] := by
    cases ahead : d.ahead with
    | nil => rfl
    | cons t more =>
      have first : t.kind = .eof := by simpa [current, ahead] using stop
      simp [first]
  rw [← marks, split, List.map_append, List.takeWhile_append_of_pos, rest, List.append_nil]
  intro k mem
  obtain ⟨t, mem', rfl⟩ := List.mem_map.mp mem
  simpa using noEnd t mem'

theorem ofTokens_closed (tokens : List Token) : (ofTokens tokens).last.kind = .eof := by
  unfold ofTokens
  split
  rename_i ahead last split
  cases found : tokens.getLast? with
  | none =>
    obtain ⟨rfl, rfl⟩ : [] = ahead ∧ _ = last := by simpa [found] using split
    rfl
  | some t =>
    by_cases closes : t.kind = .eof
    · obtain ⟨rfl, rfl⟩ : tokens.dropLast = ahead ∧ t = last := by
        simpa [found, closes] using split
      exact closes
    · obtain ⟨rfl, rfl⟩ : tokens = ahead ∧ _ = last := by simpa [found, closes] using split
      rfl

theorem ofTokens_ahead (tokens : List Token) : (ofTokens tokens).ahead ⊆ tokens := by
  unfold ofTokens
  cases found : tokens.getLast? with
  | none => simp
  | some t =>
    by_cases closes : t.kind = .eof
    · simpa only [if_pos closes] using List.dropLast_subset tokens
    · simp [closes]

/-- Nothing is asked of the names in tokens that were not made from a text. -/
theorem ofTokens_fit (tokens : List Token) : (ofTokens tokens).Fit False :=
  ⟨ofTokens_closed tokens, False.elim⟩

/-- The end that a list is given or has taken off does not change what comes before the end. -/
theorem ofTokens_takeWhile (tokens : List Token) :
    ((ofTokens tokens).ahead.map Token.kind).takeWhile (· ≠ .eof) =
      (tokens.map Token.kind).takeWhile (· ≠ .eof) := by
  rcases List.eq_nil_or_concat tokens with rfl | ⟨ts, t, rfl⟩
  · rfl
  rw [List.concat_eq_append]
  by_cases closes : t.kind = .eof
  · have ahead : (ofTokens (ts ++ [t])).ahead = ts := by simp [ofTokens, closes]
    rw [ahead, List.map_append, List.takeWhile_append]
    split
    · rename_i whole
      simpa [closes] using (List.takeWhile_prefix _).eq_of_length whole
    · rfl
  · have ahead : (ofTokens (ts ++ [t])).ahead = ts ++ [t] := by simp [ofTokens, closes]
    rw [ahead]

/-- Reading is sound. If tokens are read as a program, the program spells just the tokens before the
end of the text, semicolons left out, and all its operators are grouped by their precedence, equal
ones from the left. -/
theorem program_spells {tokens : List Token} {p : Program} {d : Cursor}
    (read : (ofTokens tokens).program = .ok p d) :
    p.spell = Token.marks ((tokens.map Token.kind).takeWhile (· ≠ .eof)) ∧
      ∀ e ∈ p.exprs, e.Grouped := by
  obtain ⟨_, takes, rfl, stop, sound, -⟩ := Parse.program_reads _ (ofTokens_fit tokens) p d read
  refine ⟨?_, fun e mem => (sound e mem).1⟩
  rw [← ofTokens_takeWhile, takes.marks_eq stop]

theorem program_of_parse {source : String} {p : Program} (h : parse source = .ok p) :
    ∃ d, (ofTokens (tokenize source)).program = .ok p d := by
  unfold parse at h
  split at h
  · rename_i q d read
    obtain rfl : q = p := Except.ok.inj h
    exact ⟨d, read⟩
  · cases h

/-- Operators of every strength, with and without parentheses. -/
def operators : String :=
  "program p float x, y; x, y <- 1.5 - 2 * -(3 - x) - x / 4, 7 div 2 * 3 mod 2; " ++
  "if ~(x < 2) | x = 3 & y ~= 1 | true :: print x; fi"

theorem operators_parses : ∃ p, parse operators = .ok p :=
  except_of_isOk (by decide +kernel)

theorem program_spells_operators :
    ∃ p d, (ofTokens (tokenize operators)).program = .ok p d ∧
      p.spell = Token.marks (((tokenize operators).map Token.kind).takeWhile (· ≠ .eof)) ∧
      ∀ e ∈ p.exprs, e.Grouped := by
  obtain ⟨p, parsed⟩ := operators_parses
  obtain ⟨d, read⟩ := program_of_parse parsed
  exact ⟨p, d, read, program_spells read⟩

end Cursor

end Guarded

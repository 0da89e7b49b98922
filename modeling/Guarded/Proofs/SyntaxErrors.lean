import Guarded.Proofs.Positions
import Guarded.Proofs.Spelling

/-!
The errors of reading. A text that cannot be read is refused at one of its tokens, and a character
that belongs to no token is never passed over: the token blamed is the first such character, or it
comes before that. The error for such a character names it, with one exception. Right after a colon
only a type will do, and the error for anything else there, such a character too, is that a type is
missing.

A colon is taken in one place only, before the result type of a function, and everything else is
read from a cursor that is not right after a colon. That and the tokens passed over is the invariant
of all functions of the grammar.
-/

namespace Guarded

namespace Token.Kind

def isUnknown : Kind → Bool
  | .unknown _ => true
  | _ => false

theorem isUnknown_of_ne {k : Kind} (known : ∀ ch, k ≠ .unknown ch) : k.isUnknown = false := by
  cases k with
  | unknown ch => exact absurd rfl (known ch)
  | _ => rfl

/-- What may be taken anywhere: no colon, no unknown character, and not the end of the text. -/
def isCommon : Kind → Bool
  | .colon | .unknown _ | .eof => false
  | _ => true

theorem isUnknown_of_isCommon {k : Kind} (common : k.isCommon = true) : k.isUnknown = false := by
  cases k <;> first | rfl | cases common

theorem ne_colon_of_isCommon {k : Kind} (common : k.isCommon = true) : k ≠ .colon := by
  rintro rfl
  cases common

theorem ne_eof_of_isCommon {k : Kind} (common : k.isCommon = true) : k ≠ .eof := by
  rintro rfl
  cases common

theorem isCommon_of_isType {k : Kind} (typed : k.isType = true) : k.isCommon = true := by
  cases k <;> first | rfl | cases typed

end Token.Kind

theorem BinOp.token_isCommon (op : BinOp) : op.token.isCommon = true := by
  cases op <;> rfl

theorem UnOp.token_isCommon (op : UnOp) : op.token.isCommon = true := by
  cases op <;> rfl

/-- The last of these tokens is a colon. -/
def Token.ColonLast (ts : List Token) : Prop :=
  ts.getLast?.map Token.kind = some .colon

instance (ts : List Token) : Decidable (Token.ColonLast ts) :=
  inferInstanceAs (Decidable (_ = _))

theorem Token.colonLast_concat {ts : List Token} {t : Token} :
    ColonLast (ts ++ [t]) ↔ t.kind = .colon := by
  simp [ColonLast]

/-- An error that blames the token `t`, which comes after `before`. -/
structure Error.About (e : Error) (before : List Token) (t : Token) : Prop where
  known : ∀ u ∈ before, u.kind.isUnknown = false
  span : e.span? = some t.span
  char : ∀ ch, t.kind = .unknown ch →
    e = if Token.ColonLast before then .expectedType t.span else .unexpectedChar ch t.span
  named : ∀ ch s, e = .unexpectedChar ch s → t.kind = .unknown ch

/-- An error that blames one of these tokens. -/
def Error.Among (e : Error) (all : List Token) : Prop :=
  ∃ before t after, all = before ++ t :: after ∧ e.About before t

/-- The cursor is after the tokens `before`, none of which is an unknown character. -/
structure Cursor.After (all before : List Token) (c : Cursor) : Prop where
  closed : c.last.kind = .eof
  split : all = before ++ (c.ahead ++ [c.last])
  known : ∀ t ∈ before, t.kind.isUnknown = false

/-- The cursor is not right after a colon. -/
def Cursor.Clear (all : List Token) (c : Cursor) : Prop :=
  ∃ before, c.After all before ∧ ¬ Token.ColonLast before

namespace Cursor
variable {all before : List Token} {c d : Cursor} {e : Error}

/-- What stands at the cursor begins with the current token. -/
theorem current_cons (c : Cursor) : ∃ rest, c.ahead ++ [c.last] = c.current :: rest := by
  unfold current
  cases c.ahead with
  | nil => exact ⟨[], rfl⟩
  | cons t rest => exact ⟨rest ++ [c.last], rfl⟩

theorem After.among (h : c.After all before) (about : e.About before c.current) :
    e.Among all := by
  obtain ⟨rest, same⟩ := c.current_cons
  exact ⟨before, c.current, rest, by rw [h.split, same], about⟩

theorem Clear.of_eq (h : c.Clear all) (last : d.last = c.last) (ahead : d.ahead = c.ahead) :
    d.Clear all := by
  obtain ⟨before, here, clear⟩ := h
  refine ⟨before, ⟨?_, ?_, here.known⟩, clear⟩
  · rw [last, here.closed]
  · rw [ahead, last, here.split]

/-- Blaming the current token, if it is a known one. -/
theorem After.blame (h : c.After all before) (known : c.current.kind.isUnknown = false)
    (span : e.span? = some c.current.span) (other : ∀ ch s, e ≠ .unexpectedChar ch s) :
    e.Among all := by
  refine h.among ⟨h.known, span, fun ch unknown => ?_, fun ch s same => absurd same (other ch s)⟩
  rw [unknown] at known
  cases known

end Cursor

namespace Parse

/-- A call that leaves the cursor as `post` says, or fails and blames one of the tokens. -/
def Settles {α : Type} (all : List Token) (c : Cursor) (x : Parse α) (post : Cursor → Prop) :
    Prop :=
  (∀ a d, x c = .ok a d → post d) ∧ ∀ e d, x c = .error e d → e.Among all

/-- A call that starts and, if it succeeds, ends away from a colon. -/
def Sure {α : Type} (all : List Token) (c : Cursor) (x : Parse α) : Prop :=
  c.Clear all → Settles all c x (Cursor.Clear all)

section
variable {α β : Type} {all : List Token} {c : Cursor} {x : Parse α} {f : α → Parse β}
variable {q post : Cursor → Prop}

theorem Settles.bind (first : Settles all c x q)
    (second : ∀ a d, q d → Settles all d (f a) post) : Settles all c (x >>= f) post := by
  constructor
  · intro b d run
    obtain ⟨a, d', hx, hf⟩ := lasting_bind_ok.mp run
    exact (second a d' (first.1 a d' hx)).1 b d hf
  · intro e d run
    rcases lasting_bind_error.mp run with hx | ⟨a, d', hx, hf⟩
    · exact first.2 e d hx
    · exact (second a d' (first.1 a d' hx)).2 e d hf

theorem Settles.pure {b : β} (h : post c) : Settles all c (Pure.pure b) post := by
  constructor
  · intro a d run
    obtain ⟨-, rfl⟩ := lasting_pure_ok.mp run
    exact h
  · intro e d run
    cases run

theorem Settles.throw {e : Error} (blamed : e.Among all) :
    Settles all c (MonadExcept.throw e : Parse β) post := by
  constructor
  · intro b d run
    exact absurd run lasting_throw_ok
  · intro e' d run
    obtain rfl : e = e' := by injection run
    exact blamed

theorem Settles.look {f : Token.Kind → Parse β} (h : Settles all c (f c.current.kind) post) :
    Settles all c (Parse.kind >>= f) post :=
  h

theorem Settles.place {f : Span → Parse β} (h : Settles all c (f c.current.span) post) :
    Settles all c (span >>= f) post :=
  h

theorem Settles.discard (h : Settles all c x post) : Settles all c (Functor.discard x) post :=
  (h.bind fun _ _ here => pure here : Settles all c (x >>= fun _ => Pure.pure ()) post)

namespace Sure

theorem given (h : c.Clear all → Sure all c x) : Sure all c x :=
  fun clear => h clear clear

theorem pure {b : β} : Sure all c (Pure.pure b) :=
  fun clear => .pure clear

theorem bind (first : Sure all c x) (second : ∀ a d, Sure all d (f a)) : Sure all c (x >>= f) :=
  fun clear => (first clear).bind second

theorem throw {e : Error} (blamed : e.Among all) : Sure all c (MonadExcept.throw e : Parse β) :=
  fun _ => .throw blamed

theorem discard (h : Sure all c x) : Sure all c (Functor.discard x) :=
  fun clear => (h clear).discard

theorem ite {p : Prop} [Decidable p] {y z : Parse β} (hy : p → Sure all c y)
    (hz : ¬ p → Sure all c z) : Sure all c (if p then y else z) := by
  split
  · exact hy ‹_›
  · exact hz ‹_›

/-- Looking at the current token changes nothing. -/
theorem look {f : Token.Kind → Parse β} (h : Sure all c (f c.current.kind)) :
    Sure all c (Parse.kind >>= f) :=
  h

theorem place {f : Span → Parse β} (h : Sure all c (f c.current.span)) :
    Sure all c (span >>= f) :=
  h

theorem state {f : Cursor → Parse β} (h : Sure all c (f c)) : Sure all c (get >>= f) :=
  h

theorem prev {f : Span → Parse β} (h : Sure all c (f c.prev)) : Sure all c (Parse.prev >>= f) :=
  h

end Sure

end

section
variable {α : Type} {all before : List Token} {c : Cursor}

theorem unexpected_settles (here : c.After all before) (clear : ¬ Token.ColonLast before)
    {expected : String} {post : Cursor → Prop} :
    Settles all c (unexpected expected : Parse α) post := by
  unfold unexpected
  change Settles all c (match c.current.kind with
    | .unknown ch => throw (.unexpectedChar ch c.current.span)
    | kind => throw (.unexpectedToken expected kind.describe c.current.span)) post
  split
  · rename_i ch unknown
    refine .throw (here.among ⟨here.known, rfl, ?_, ?_⟩)
    · intro ch' same
      obtain rfl : ch = ch' := Token.Kind.unknown.inj (unknown.symm.trans same)
      rw [if_neg clear]
    · intro ch' s same
      obtain rfl : ch = ch' := (Error.unexpectedChar.inj same).1
      exact unknown
  · rename_i other
    exact .throw (here.blame (Token.Kind.isUnknown_of_ne other) rfl nofun)

theorem unexpected_sure {expected : String} : Sure all c (unexpected expected : Parse α) :=
  fun ⟨_, here, clear⟩ => unexpected_settles here clear

/-- Taking a known token that is not the end of the text. -/
theorem advance_settles (here : c.After all before) (known : c.current.kind.isUnknown = false)
    (notEnd : c.current.kind ≠ .eof) :
    Settles all c advance (Cursor.After all (before ++ [c.current])) := by
  constructor
  · intro t d run
    cases ahead : c.ahead with
    | nil =>
      have current : c.current = c.last := by simp [Cursor.current, ahead]
      exact absurd (current ▸ here.closed) notEnd
    | cons u rest =>
      obtain ⟨-, rfl⟩ : u = t ∧ { c with ahead := rest, prev := u.span } = d := by
        simpa only [ahead] using lasting_modifyGet_ok.mp run
      have current : c.current = u := by simp [Cursor.current, ahead]
      rw [current] at known ⊢
      refine ⟨here.closed, by rw [here.split, ahead]; simp, fun v mem => ?_⟩
      rcases List.mem_append.mp mem with earlier | own
      · exact here.known v earlier
      · obtain rfl := List.mem_singleton.mp own
        exact known
  · intro e d run
    cases run

/-- After a common token the cursor is away from a colon, wherever it was. -/
theorem skip_settles (here : c.After all before) (common : c.current.kind.isCommon = true) :
    Settles all c advance (Cursor.Clear all) := by
  have step := advance_settles here (Token.Kind.isUnknown_of_isCommon common)
    (Token.Kind.ne_eof_of_isCommon common)
  refine ⟨fun t d run => ⟨_, step.1 t d run, ?_⟩, step.2⟩
  rw [Token.colonLast_concat]
  exact Token.Kind.ne_colon_of_isCommon common

theorem advance_sure (common : c.current.kind.isCommon = true) : Sure all c advance :=
  fun ⟨_, here, _⟩ => skip_settles here common

theorem skip_sure {k : Token.Kind} (here : c.current.kind = k) (common : k.isCommon = true) :
    Sure all c (discard advance) :=
  .discard (advance_sure (here ▸ common))

theorem expect_sure {k : Token.Kind} (common : k.isCommon = true) : Sure all c (expect k) := by
  unfold expect
  exact .look (.ite (fun here => skip_sure here common) fun _ => unexpected_sure)

theorem consume_sure {k : Token.Kind} (common : k.isCommon = true) : Sure all c (consume k) := by
  unfold consume
  refine .look (.ite (fun here => ?_) fun _ => .pure)
  exact .bind (skip_sure here common) fun _ _ => .pure

theorem freshId_sure : Sure all c freshId := by
  intro clear
  constructor
  · intro i d run
    obtain ⟨-, rfl⟩ : c.nextId = i ∧ { c with nextId := c.nextId + 1 } = d :=
      lasting_modifyGet_ok.mp run
    exact clear.of_eq rfl rfl
  · intro e d run
    cases run

theorem node_sure (start : Span) : Sure all c (node start) := by
  unfold node
  exact .bind freshId_sure fun _ _ => .prev .pure

theorem join_sure (a b : Span) : Sure all c (join a b) := by
  unfold join
  exact .bind freshId_sure fun _ _ => .pure

theorem wrap_sure {start : Span} {build : Node → α} :
    Sure all c (do return build (← node start)) :=
  .bind (node_sure start) fun _ _ => .pure

theorem ident_sure : Sure all c ident := by
  refine .given fun ⟨before, here, _⟩ => ?_
  unfold ident
  refine .look ?_
  split
  · rename_i name found
    refine .bind (advance_sure (by rw [found]; rfl)) fun t d => ?_
    exact .bind freshId_sure fun _ _ => .pure
  · exact unexpected_sure
  · rename_i other
    exact .place (.throw (here.blame (Token.Kind.isUnknown_of_ne other) rfl nofun))

/-- A type is read where one stands or where one has to stand. -/
theorem type_settles (here : c.After all before)
    (awaited : c.current.kind.isType = true ∨ Token.ColonLast before) :
    Settles all c type (Cursor.Clear all) := by
  unfold type
  refine .look ?_
  extract_lets rest
  have after : c.current.kind.isType = true → ∀ ty, Settles all c (rest ty) (Cursor.Clear all) :=
    fun typed _ => (skip_settles here (Token.Kind.isCommon_of_isType typed)).discard.bind
      fun _ _ clear => .pure clear
  split
  · exact after (by simp [*, Token.Kind.isType]) .int
  · exact after (by simp [*, Token.Kind.isType]) .float
  · exact after (by simp [*, Token.Kind.isType]) .boolean
  · have untyped : c.current.kind.isType = false := by
      cases kind : c.current.kind <;> first | rfl | contradiction
    have colon : Token.ColonLast before := awaited.resolve_left (by simp [untyped])
    refine .place (.bind (q := fun _ => False) (.throw (here.among ?_))
      fun _ _ never => never.elim)
    exact ⟨here.known, rfl, fun ch _ => (if_pos colon).symm, by simp⟩

theorem type_sure (typed : c.current.kind.isType = true) : Sure all c type :=
  fun ⟨_, here, _⟩ => type_settles here (.inl typed)

/-- The result type of a function. -/
theorem result_sure : Sure all c (do expect .colon; type) := by
  rintro ⟨before, here, clear⟩
  refine Settles.bind (q := fun d => ∃ before, d.After all before ∧ Token.ColonLast before) ?_
    fun _ d ⟨before, there, colon⟩ => type_settles there (.inr colon)
  unfold expect
  refine .look ?_
  by_cases colon : c.current.kind = .colon
  · rw [if_pos colon]
    have step := advance_settles here (by rw [colon]; rfl) (by simp [colon])
    exact .discard ⟨fun t d run => ⟨_, step.1 t d run, Token.colonLast_concat.mpr colon⟩, step.2⟩
  · rw [if_neg colon]
    exact unexpected_settles here clear

theorem idents_sure (fuel : Nat) : Sure all c (idents fuel) := by
  induction fuel generalizing c with
  | zero => exact unexpected_sure
  | succ fuel ih =>
    unfold idents
    refine .bind ident_sure fun name d => .bind (consume_sure rfl) fun more e => ?_
    exact .ite (fun _ => .bind ih fun _ _ => .pure) fun _ => .pure

theorem params_sure (fuel : Nat) : Sure all c (params fuel) := by
  induction fuel generalizing c with
  | zero => exact unexpected_sure
  | succ fuel ih =>
    unfold params
    refine .look ?_
    extract_lets rest
    have after : ∀ ty d, Sure all d (rest ty) := by
      intro ty d
      refine .bind ident_sure fun name e => .bind (consume_sure rfl) fun more g => ?_
      exact .ite (fun _ => .bind ih fun _ _ => .pure) fun _ => .pure
    refine .ite (fun typed => ?_) fun _ => after none c
    rw [bind_map_left]
    exact .bind (type_sure typed) fun ty d => after (some ty) d

/-- A literal that is out of range is blamed when it has been taken already. -/
theorem literal_among (clear : c.Clear all) (known : c.current.kind.isUnknown = false)
    (text : String) : (Error.invalidNumber text c.current.span).Among all := by
  obtain ⟨before, here, -⟩ := clear
  exact here.blame known rfl nofun

theorem intValue_sure (value : Int) {s : Span}
    (blamed : ∀ text, (Error.invalidNumber text s).Among all) : Sure all c (intValue value s) := by
  unfold intValue
  exact .ite (fun _ => .pure) fun _ => .throw (blamed _)

theorem floatValue_sure (value : Float) {s : Span}
    (blamed : ∀ text, (Error.invalidNumber text s).Among all) :
    Sure all c (floatValue value s) := by
  unfold floatValue
  exact .ite (fun _ => .pure) fun _ => .throw (blamed _)

end

/-- The expression functions, all with the same fuel. -/
structure ExprSure (all : List Token) (fuel : Nat) : Prop where
  binary (c : Cursor) (min : Nat) : Sure all c (binary fuel min)
  climb (c : Cursor) (min : Nat) (lhs : Expr) : Sure all c (climb fuel min lhs)
  unary (c : Cursor) : Sure all c (unary fuel)
  signed (c : Cursor) (op : UnOp) : c.current.kind = op.token → Sure all c (signed fuel op)
  primary (c : Cursor) : Sure all c (primary fuel)
  args (c : Cursor) : Sure all c (args fuel)
  exprs (c : Cursor) : Sure all c (exprs fuel)

namespace ExprSure
variable {all : List Token} {fuel : Nat} (ih : ExprSure all fuel)
include ih

theorem binary_succ (c : Cursor) (min : Nat) : Sure all c (Parse.binary (fuel + 1) min) := by
  unfold Parse.binary
  exact .bind (ih.unary c) fun lhs d => ih.climb d min lhs

theorem climb_succ (c : Cursor) (min : Nat) (lhs : Expr) :
    Sure all c (Parse.climb (fuel + 1) min lhs) := by
  unfold Parse.climb
  refine .look ?_
  split
  · exact .pure
  · rename_i op found
    refine .ite (fun _ => .pure) fun _ => ?_
    refine .bind (skip_sure (BinOp.eq_token_of_ofToken? found) op.token_isCommon) fun _ d => ?_
    refine .bind (ih.binary d op.precedence) fun rhs e => ?_
    exact .bind (join_sure _ _) fun n g => ih.climb g min _

theorem unary_succ (c : Cursor) : Sure all c (Parse.unary (fuel + 1)) := by
  unfold Parse.unary
  refine .look ?_
  split
  · exact ih.signed c .neg ‹_›
  · exact ih.signed c .not ‹_›
  · exact ih.primary c

theorem signed_succ (c : Cursor) (op : UnOp) (here : c.current.kind = op.token) :
    Sure all c (Parse.signed (fuel + 1) op) := by
  unfold Parse.signed
  refine .bind (advance_sure (here ▸ op.token_isCommon)) fun t d => ?_
  refine .bind (ih.unary d) fun operand e => ?_
  exact .bind (join_sure _ _) fun _ _ => .pure

theorem primary_succ (c : Cursor) : Sure all c (Parse.primary (fuel + 1)) := by
  refine .given fun clear => ?_
  unfold Parse.primary
  refine .place (.look ?_)
  split
  · rename_i value found
    have blamed := literal_among clear (by rw [found]; rfl)
    refine .bind (skip_sure found rfl) fun _ d => ?_
    exact .bind (intValue_sure value blamed) fun _ _ => wrap_sure
  · rename_i value found
    have blamed := literal_among clear (by rw [found]; rfl)
    refine .bind (skip_sure found rfl) fun _ d => ?_
    exact .bind (floatValue_sure value blamed) fun _ _ => wrap_sure
  · exact .bind (skip_sure ‹_› rfl) fun _ _ => wrap_sure
  · exact .bind (skip_sure ‹_› rfl) fun _ _ => wrap_sure
  · refine .bind ident_sure fun name d => ?_
    refine .look (.ite (fun _ => ?_) fun _ => ?_)
    · exact .bind (ih.args d) fun _ _ => wrap_sure
    · refine .bind (consume_sure rfl) fun bracket e => ?_
      refine .ite (fun _ => ?_) fun _ => wrap_sure
      refine .bind (ih.binary e 0) fun index g => ?_
      exact .bind (expect_sure rfl) fun _ _ => wrap_sure
  · refine .bind (skip_sure ‹_› rfl) fun _ d => .bind (ih.binary d 0) fun inner e => ?_
    exact .bind (expect_sure rfl) fun _ _ => wrap_sure
  · exact unexpected_sure
  · rename_i other
    obtain ⟨before, here, -⟩ := clear
    exact .throw (here.blame (Token.Kind.isUnknown_of_ne other) rfl nofun)

theorem args_succ (c : Cursor) : Sure all c (Parse.args (fuel + 1)) := by
  unfold Parse.args
  refine .bind (expect_sure rfl) fun _ d => .look ?_
  extract_lets rest
  have after : ∀ es e, Sure all e (rest es) := fun es e =>
    .bind (expect_sure rfl) fun _ _ => .pure
  exact .ite (fun _ => after [] d) fun _ => .bind (ih.exprs d) fun es e => after es e

theorem exprs_succ (c : Cursor) : Sure all c (Parse.exprs (fuel + 1)) := by
  unfold Parse.exprs
  refine .bind (ih.binary c 0) fun e d => .bind (consume_sure rfl) fun more g => ?_
  exact .ite (fun _ => .bind (ih.exprs g) fun _ _ => .pure) fun _ => .pure

end ExprSure

theorem expr_sure (all : List Token) (fuel : Nat) : ExprSure all fuel := by
  induction fuel with
  | zero =>
    exact ⟨fun _ _ => unexpected_sure, fun _ _ _ => unexpected_sure, fun _ => unexpected_sure,
      fun _ _ _ => unexpected_sure, fun _ => unexpected_sure, fun _ => unexpected_sure,
      fun _ => unexpected_sure⟩
  | succ fuel ih =>
    exact ⟨ih.binary_succ, ih.climb_succ, ih.unary_succ, ih.signed_succ, ih.primary_succ,
      ih.args_succ, ih.exprs_succ⟩

section
variable {all : List Token} {c : Cursor}

theorem target_sure (fuel : Nat) : Sure all c (target fuel) := by
  unfold target
  refine .bind ident_sure fun name d => .bind (consume_sure rfl) fun bracket e => ?_
  refine .ite (fun _ => ?_) fun _ => .pure
  refine .bind ((expr_sure all fuel).binary e 0) fun index g => ?_
  exact .bind (expect_sure rfl) fun _ _ => .pure

theorem targets_sure (fuel : Nat) : Sure all c (targets fuel) := by
  induction fuel generalizing c with
  | zero => exact unexpected_sure
  | succ fuel ih =>
    unfold targets
    refine .bind (target_sure fuel) fun t d => .bind (consume_sure rfl) fun more e => ?_
    exact .ite (fun _ => .bind ih fun _ _ => .pure) fun _ => .pure

theorem declaration_sure (fuel : Nat) (typed : c.current.kind.isType = true) :
    Sure all c (declaration fuel) := by
  unfold declaration
  refine .bind (type_sure typed) fun ty d => .bind (consume_sure rfl) fun bracket e => ?_
  refine .ite (fun _ => ?_) fun _ => .bind (idents_sure fuel) fun _ _ => .pure
  refine .bind ((expr_sure all fuel).binary e 0) fun size g => ?_
  exact .bind (expect_sure rfl) fun _ _ => .bind (idents_sure fuel) fun _ _ => .pure

theorem assignment_sure (fuel : Nat) : Sure all c (assignment fuel) := by
  unfold assignment
  refine .bind (targets_sure fuel) fun targets d => .bind (expect_sure rfl) fun _ e => ?_
  exact .bind ((expr_sure all fuel).exprs e) fun _ _ => .pure

theorem signature_sure (fuel : Nat) (function : Bool)
    (here : c.current.kind = methodToken function) : Sure all c (signature fuel function) := by
  have common : (methodToken function).isCommon = true := by cases function <;> rfl
  unfold signature
  refine .bind (skip_sure here common) fun _ d => .bind ident_sure fun name e => ?_
  refine .bind (expect_sure rfl) fun _ g => .look ?_
  extract_lets rest
  have after : ∀ ps h, Sure all h (rest ps) := by
    intro ps h
    refine .bind (expect_sure rfl) fun _ i => .ite (fun _ => ?_) fun _ => .pure
    rw [← bind_assoc]
    exact .bind result_sure fun ty j => .pure
  exact .ite (fun _ => after [] g) fun _ => .bind (params_sure fuel) after

end

/-- The statement functions, all with the same fuel. -/
structure StmtSure (all : List Token) (fuel : Nat) : Prop where
  stmt (c : Cursor) : Sure all c (stmt fuel)
  form (c : Cursor) : Sure all c (form fuel)
  method (c : Cursor) (function : Bool) : c.current.kind = methodToken function →
    Sure all c (method fuel function)
  block (c : Cursor) : Sure all c (block fuel)
  stmts (c : Cursor) (close : Token.Kind) : Sure all c (stmts fuel close)
  guards (c : Cursor) (close : Token.Kind) : close.isCommon = true → Sure all c (guards fuel close)

namespace StmtSure
variable {all : List Token} {fuel : Nat} (ih : StmtSure all fuel)
include ih

theorem stmt_succ (c : Cursor) : Sure all c (Parse.stmt (fuel + 1)) := by
  unfold Parse.stmt
  exact .place (.bind (ih.form c) fun _ _ => wrap_sure)

theorem form_succ (c : Cursor) : Sure all c (Parse.form (fuel + 1)) := by
  unfold Parse.form
  refine .look ?_
  split
  · exact declaration_sure fuel (by simp [*, Token.Kind.isType])
  · exact declaration_sure fuel (by simp [*, Token.Kind.isType])
  · exact declaration_sure fuel (by simp [*, Token.Kind.isType])
  · exact ih.method c false ‹_›
  · exact ih.method c true ‹_›
  · refine .state (.ite (fun _ => ?_) fun _ => assignment_sure fuel)
    refine .bind ident_sure fun callee d => ?_
    exact .bind ((expr_sure all fuel).args d) fun _ _ => .pure
  · exact .bind (skip_sure ‹_› rfl) fun _ d => .bind (idents_sure fuel) fun _ _ => .pure
  · refine .bind (skip_sure ‹_› rfl) fun _ d => ?_
    exact .bind ((expr_sure all fuel).binary d 0) fun _ _ => .pure
  · exact .bind (skip_sure ‹_› rfl) fun _ d => .bind (ih.guards d .fi rfl) fun _ _ => .pure
  · exact .bind (skip_sure ‹_› rfl) fun _ d => .bind (ih.guards d .od rfl) fun _ _ => .pure
  · exact .bind (ih.block c) fun _ _ => .pure
  · refine .bind (skip_sure ‹_› rfl) fun _ d => .look (.ite (fun _ => ?_) fun _ => .pure)
    exact .bind ((expr_sure all fuel).binary d 0) fun _ _ => .pure
  · exact unexpected_sure

theorem method_succ (c : Cursor) (function : Bool)
    (here : c.current.kind = methodToken function) :
    Sure all c (Parse.method (fuel + 1) function) := by
  unfold Parse.method
  refine .bind (signature_sure fuel function here) fun head d => ?_
  exact .bind (ih.block d) fun _ _ => .pure

theorem block_succ (c : Cursor) : Sure all c (Parse.block (fuel + 1)) := by
  unfold Parse.block
  refine .place (.bind (expect_sure rfl) fun _ d => .bind (ih.stmts d .rbrace) fun body e => ?_)
  exact .bind (expect_sure rfl) fun _ _ => wrap_sure

theorem stmts_succ (c : Cursor) (close : Token.Kind) :
    Sure all c (Parse.stmts (fuel + 1) close) := by
  unfold Parse.stmts
  refine .look (.ite (fun _ => .pure) fun _ => .bind (ih.stmt c) fun s d => ?_)
  refine .bind (.discard (consume_sure rfl)) fun _ e => ?_
  exact .bind (ih.stmts e close) fun _ _ => .pure

theorem guards_succ (c : Cursor) (close : Token.Kind) (common : close.isCommon = true) :
    Sure all c (Parse.guards (fuel + 1) close) := by
  unfold Parse.guards
  refine .place (.bind ((expr_sure all fuel).binary c 0) fun cond d => ?_)
  refine .bind (expect_sure rfl) fun _ e => .bind (ih.stmt e) fun body g => ?_
  refine .bind (.discard (consume_sure rfl)) fun _ h => .bind (node_sure _) fun n i => ?_
  refine .bind (consume_sure common) fun found j => .ite (fun _ => .pure) fun _ => ?_
  refine .look (.ite (fun _ => unexpected_sure) fun _ => ?_)
  exact .bind (ih.guards j close common) fun _ _ => .pure

end StmtSure

theorem stmt_sure (all : List Token) (fuel : Nat) : StmtSure all fuel := by
  induction fuel with
  | zero =>
    exact ⟨fun _ => unexpected_sure, fun _ => unexpected_sure, fun _ _ _ => unexpected_sure,
      fun _ => unexpected_sure, fun _ _ => unexpected_sure, fun _ _ _ => unexpected_sure⟩
  | succ fuel ih =>
    exact ⟨ih.stmt_succ, ih.form_succ, ih.method_succ, ih.block_succ, ih.stmts_succ,
      ih.guards_succ⟩

theorem program_sure {all : List Token} {c : Cursor} (fuel : Nat) : Sure all c (program fuel) := by
  unfold program
  refine .place (.bind (expect_sure rfl) fun _ d => .bind ident_sure fun name e => ?_)
  exact .bind ((stmt_sure all fuel).stmts e .eof) fun body g => .prev .pure

end Parse

namespace Cursor
variable {ts : List Token} {last : Token}

theorem ofTokens_cut (ended : last.kind = .eof) :
    (ofTokens (ts ++ [last])).ahead = ts ∧ (ofTokens (ts ++ [last])).last = last := by
  simp [ofTokens, ended]

theorem ofTokens_clear (ended : last.kind = .eof) :
    (ofTokens (ts ++ [last])).Clear (ts ++ [last]) := by
  obtain ⟨ahead, closing⟩ := ofTokens_cut ended
  refine ⟨[], ⟨?_, ?_, by simp⟩, by simp [Token.ColonLast]⟩
  · rw [closing, ended]
  · rw [ahead, closing, List.nil_append]

theorem error_of_parse {source : String} {e : Error} (h : parse source = .error e) :
    ∃ d, (ofTokens (tokenize source)).program = .error e d := by
  unfold parse at h
  split at h
  · cases h
  · rename_i e' d read
    obtain rfl : e' = e := Except.error.inj h
    exact ⟨d, read⟩

end Cursor

/-- The tokens of a text are told apart by their regions. -/
theorem Scanner.Cut.eq_of_span {text : List Char} {start : Nat} {ts : List Token} {last t u : Token}
    (cut : Scanner.Cut text start ts last) (ht : t ∈ ts ++ [last]) (hu : u ∈ ts ++ [last])
    (same : u.span = t.span) : u = t := by
  have distinct : ((ts ++ [last]).map Token.span).Nodup := by
    refine List.pairwise_map.mpr (cut.apart.imp_of_mem fun {v w} hv _ apart equal => ?_)
    have wide := (cut.places v hv).order
    rw [← equal] at apart
    omega
  exact List.inj_on_of_nodup_map distinct hu ht same

/-- A text that cannot be read is refused at one of its tokens, the only one with the region of the
error, and no token before that is an unknown character. If the token is an unknown character, the
error names the character, unless the token before is a colon: there it is that a type is missing.
No other token is called an unexpected character. -/
theorem parse_refuses {source : String} {e : Error} (failed : parse source = .error e) :
    ∃ before t after, tokenize source = before ++ t :: after ∧ e.span? = some t.span ∧
      (∀ u ∈ tokenize source, u.span = t.span → u = t) ∧
      (∀ u ∈ before, u.kind.isUnknown = false) ∧
      (∀ ch, t.kind = .unknown ch →
        e = if Token.ColonLast before then .expectedType t.span else .unexpectedChar ch t.span) ∧
      ∀ ch s, e = .unexpectedChar ch s → t.kind = .unknown ch := by
  obtain ⟨ts, last, split, cut⟩ := tokenize_cut source
  obtain ⟨d, read⟩ := Cursor.error_of_parse failed
  rw [split] at read ⊢
  obtain ⟨before, t, after, parts, about⟩ :=
    (Parse.program_sure _ (Cursor.ofTokens_clear cut.ended)).2 e d read
  have mem : t ∈ ts ++ [last] := by simp [parts]
  exact ⟨before, t, after, parts, about.span, fun u hu same => cut.eq_of_span mem hu same,
    about.known, about.char, about.named⟩

/-- A refusal can be computed, though programs cannot be compared. -/
theorem refused_of_map {source : String} {e : Error}
    (h : (parse source).map (fun _ => ()) = .error e) : parse source = .error e := by
  cases run : parse source with
  | ok p => simp [run, Except.map] at h
  | error e' => simpa [run, Except.map] using h

/-- A character that no token starts with, where a value has to stand. -/
def strayValue : String :=
  "program p a <- $"

theorem parse_refuses_strayValue :
    parse strayValue = .error (.unexpectedChar '$' ⟨15, 16, 1⟩) ∧
      ∃ t ∈ tokenize strayValue, t.span = ⟨15, 16, 1⟩ ∧ t.kind = .unknown '$' := by
  have failed : parse strayValue = .error (.unexpectedChar '$' ⟨15, 16, 1⟩) :=
    refused_of_map (by decide +kernel)
  obtain ⟨before, t, after, split, span, -, -, -, named⟩ := parse_refuses failed
  refine ⟨failed, t, ?_, (Option.some.inj span).symm, named '$' _ rfl⟩
  rw [split]
  exact List.mem_append_right _ List.mem_cons_self

/-- The same character where the result type of a function has to stand. -/
def strayType : String :=
  "program p fun f() : $"

/-- The error for an unknown character after a colon does not name it. -/
theorem parse_strayType :
    parse strayType = .error (.expectedType ⟨20, 21, 1⟩) ∧
      (⟨.unknown '$', ⟨20, 21, 1⟩⟩ : Token) ∈ tokenize strayType :=
  ⟨refused_of_map (by decide +kernel), by decide +kernel⟩

end Guarded

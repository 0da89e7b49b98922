import Guarded.Proofs.Writing

/-!
Whatever is written is read back. Reading gives the tree that was written but for the numbers and
regions of its nodes. The proof follows the tree, so each reader has to stop at just the right token:
what a piece of the tree needs to know of the token behind it is said by `Stops` and `Ends`.
-/

namespace Guarded

theorem Token.Kind.eq_of_mark {k k' : Kind} (h : k.mark = .kind k') : k = k' := by
  cases k <;> cases h <;> rfl

theorem Token.Kind.floatLit_of_mark {k : Kind} {v : Float32} (h : k.mark = .single v) :
    ∃ w, k = .floatLit w ∧ Number.narrow w = v := by
  cases k <;> cases h
  exact ⟨_, rfl, rfl⟩

namespace Cursor

/-- The tokens ahead, up to the end of the text, leave these marks. -/
structure Faces (c : Cursor) (ms : List Token.Mark) : Prop where
  closed : c.last.kind = .eof
  marks : ((c.ahead.map Token.kind).takeWhile (· ≠ .eof)).map Token.Kind.mark = ms

namespace Faces
variable {c : Cursor} {m : Token.Mark} {ms : List Token.Mark} {k : Token.Kind}

/-- The tokens ahead of a cursor that is not at the end. -/
theorem cons (h : c.Faces (m :: ms)) :
    ∃ t rest, c.ahead = t :: rest ∧ t.kind ≠ .eof ∧ t.kind.mark = m ∧
      ((rest.map Token.kind).takeWhile (· ≠ .eof)).map Token.Kind.mark = ms := by
  have marks := h.marks
  cases ahead : c.ahead with
  | nil => simp [ahead] at marks
  | cons t rest =>
    by_cases atEnd : t.kind = .eof
    · simp [ahead, atEnd] at marks
    · rw [ahead, List.map_cons, List.takeWhile_cons_of_pos (by simpa using atEnd), List.map_cons,
        List.cons.injEq] at marks
      exact ⟨t, rest, rfl, atEnd, marks.1, marks.2⟩

theorem mark (h : c.Faces (m :: ms)) : c.current.kind.mark = m := by
  obtain ⟨t, rest, ahead, -, mark, -⟩ := h.cons
  simpa [current, ahead] using mark

theorem kind (h : c.Faces (.kind k :: ms)) : c.current.kind = k :=
  Token.Kind.eq_of_mark h.mark

theorem name {name : Ident} (h : c.Faces (name.mark :: ms)) : c.current.kind = .ident name.name :=
  h.kind

theorem atEnd (h : c.Faces []) : c.current.kind = .eof := by
  have marks := h.marks
  cases ahead : c.ahead with
  | nil => simpa [current, ahead] using h.closed
  | cons t rest =>
    by_cases atEnd : t.kind = .eof
    · simpa [current, ahead] using atEnd
    · simp [ahead, atEnd] at marks

theorem peek (h : c.Faces (m :: .kind k :: ms)) : c.peek.kind = k := by
  obtain ⟨t, rest, ahead, -, -, marks⟩ := h.cons
  obtain ⟨u, rest', ahead', -, mark, -⟩ : ∃ u rest', rest = u :: rest' ∧ _ ∧ _ ∧ _ :=
    Faces.cons (c := { c with ahead := rest }) ⟨h.closed, marks⟩
  have kind := Token.Kind.eq_of_mark mark
  simpa [Cursor.peek, ahead, ahead'] using kind

theorem length_le (h : c.Faces ms) : ms.length ≤ c.ahead.length := by
  rw [← h.marks, List.length_map]
  exact (List.takeWhile_prefix _).length_le.trans (by rw [List.length_map])

end Faces

end Cursor

namespace Parse

/-- The call succeeds at this cursor, and what it gives and where it stops satisfy `post`. -/
def Yields {α : Type} (c : Cursor) (x : Parse α) (post : α → Cursor → Prop) : Prop :=
  ∃ a d, x c = .ok a d ∧ post a d

namespace Yields
variable {α β : Type} {c : Cursor} {x : Parse α} {f : α → Parse β}
variable {q : α → Cursor → Prop} {post : β → Cursor → Prop}

theorem pure {b : β} (h : post b c) : Yields c (Pure.pure b) post :=
  ⟨b, c, rfl, h⟩

theorem bind (first : Yields c x q) (second : ∀ a d, q a d → Yields d (f a) post) :
    Yields c (x >>= f) post := by
  obtain ⟨a, d, hx, ha⟩ := first
  obtain ⟨b, e, hf, hb⟩ := second a d ha
  exact ⟨b, e, lasting_bind_ok.mpr ⟨a, d, hx, hf⟩, hb⟩

theorem bind_and {p q : α → Cursor → Prop} (first : Yields c x fun a d => p a d ∧ q a d)
    (second : ∀ a d, p a d → q a d → Yields d (f a) post) : Yields c (x >>= f) post :=
  first.bind fun a d h => second a d h.1 h.2

theorem mono {post : α → Cursor → Prop} (h : Yields c x q) (imp : ∀ a d, q a d → post a d) :
    Yields c x post := by
  obtain ⟨a, d, hx, ha⟩ := h
  exact ⟨a, d, hx, imp a d ha⟩

theorem discard (h : Yields c x q) : Yields c (Functor.discard x) fun _ d => ∃ a, q a d := by
  obtain ⟨a, d, hx, ha⟩ := h
  exact ⟨(), d, lasting_discard_ok.mpr ⟨a, hx⟩, a, ha⟩

theorem look {f : Token.Kind → Parse β} (h : Yields c (f c.current.kind) post) :
    Yields c (kind >>= f) post :=
  h

theorem place {f : Span → Parse β} (h : Yields c (f c.current.span) post) :
    Yields c (span >>= f) post :=
  h

theorem state {f : Cursor → Parse β} (h : Yields c (f c) post) : Yields c (get >>= f) post :=
  h

end Yields

variable {c : Cursor} {m : Token.Mark} {ms rest : List Token.Mark}

/-- Takes the first of the tokens ahead. -/
theorem advance_yields (faces : c.Faces (m :: ms)) : Yields c advance fun _ d => d.Faces ms := by
  obtain ⟨t, more, ahead, -, -, marks⟩ := faces.cons
  refine ⟨t, { c with ahead := more, prev := t.span }, ?_, faces.closed, marks⟩
  refine lasting_modifyGet_ok.mpr ?_
  rw [ahead]
  exact ⟨rfl, rfl⟩

theorem skip_yields (faces : c.Faces (m :: ms)) :
    Yields c (discard advance) fun _ d => d.Faces ms :=
  (advance_yields faces).discard.mono fun _ _ ⟨_, h⟩ => h

theorem expect_yields {k : Token.Kind} (faces : c.Faces (.kind k :: ms)) :
    Yields c (expect k) fun _ d => d.Faces ms := by
  unfold expect
  refine .look ?_
  rw [if_pos faces.kind]
  exact skip_yields faces

theorem consume_yields {k : Token.Kind} (faces : c.Faces (.kind k :: ms)) :
    Yields c (consume k) fun found d => found = true ∧ d.Faces ms := by
  unfold consume
  refine .look ?_
  rw [if_pos faces.kind]
  exact (skip_yields faces).bind fun _ d faces => .pure ⟨rfl, faces⟩

/-- A token of another kind is left where it is. -/
theorem consume_passes {k : Token.Kind} (faces : c.Faces ms) (other : c.current.kind ≠ k) :
    Yields c (consume k) fun found d => found = false ∧ d.Faces ms := by
  unfold consume
  refine .look ?_
  rw [if_neg other]
  exact .pure ⟨rfl, faces⟩

theorem node_yields (start : Span) (faces : c.Faces ms) :
    Yields c (node start) fun _ d => d.Faces ms :=
  ⟨_, _, rfl, faces.closed, faces.marks⟩

theorem join_yields (a b : Span) (faces : c.Faces ms) :
    Yields c (join a b) fun _ d => d.Faces ms :=
  ⟨_, _, rfl, faces.closed, faces.marks⟩

theorem freshId_yields (faces : c.Faces ms) : Yields c freshId fun _ d => d.Faces ms :=
  ⟨_, _, rfl, faces.closed, faces.marks⟩

theorem ident_yields {name : Ident} (faces : c.Faces (name.mark :: ms)) :
    Yields c ident fun name' d => name'.bare = name.bare ∧ d.Faces ms := by
  unfold ident
  refine .look ?_
  rw [faces.name]
  refine (advance_yields faces).bind fun t d faces => ?_
  exact (freshId_yields faces).bind fun i e faces => .pure ⟨rfl, faces⟩

theorem type_yields {ty : Ty} (written : ty.isTerminal = true) (faces : c.Faces (ty.spell ++ ms)) :
    Yields c type fun ty' d => ty' = ty ∧ d.Faces ms := by
  have after : ∀ {d : Cursor} {m : Token.Mark}, d.Faces (m :: ms) →
      Yields d (do discard advance; return ty) fun ty' e => ty' = ty ∧ e.Faces ms := by
    intro d m faces
    exact (skip_yields faces).bind fun _ e faces => .pure ⟨rfl, faces⟩
  unfold type
  refine .look ?_
  cases ty with
  | undefined | num => cases written
  | int | float | boolean =>
    rw [Cursor.Faces.kind faces]
    exact after faces

/-- An expression may end here: no bracket comes next, and no operator that binds more tightly than
`limit`. -/
def Stops (limit : Nat) (ms : List Token.Mark) : Prop :=
  ∀ k, ms.head? = some (.kind k) →
    k ≠ .lparen ∧ k ≠ .lbracket ∧ ∀ o, BinOp.ofToken? k = some o → o.precedence ≤ limit

theorem Stops.nil {limit : Nat} : Stops limit [] :=
  nofun

theorem Stops.mono {limit limit' : Nat} (stops : Stops limit ms) (le : limit ≤ limit') :
    Stops limit' ms := by
  intro k first
  obtain ⟨noCall, noIndex, loose⟩ := stops k first
  exact ⟨noCall, noIndex, fun o found => (loose o found).trans le⟩

theorem Stops.of_kind {limit : Nat} {k : Token.Kind} (noCall : k ≠ .lparen) (noIndex : k ≠ .lbracket)
    (noOperator : BinOp.ofToken? k = none) : Stops limit (.kind k :: ms) := by
  intro k' first
  obtain rfl : k = k' := by simpa using first
  exact ⟨noCall, noIndex, by simp [noOperator]⟩

theorem Stops.of_operator {op : BinOp} {limit : Nat} (le : op.precedence ≤ limit) :
    Stops limit (.kind op.token :: ms) := by
  intro k first
  obtain rfl : op.token = k := by simpa using first
  refine ⟨by cases op <;> nofun, by cases op <;> nofun, fun o found => ?_⟩
  have same : op.token = o.token := BinOp.eq_token_of_ofToken? found
  obtain rfl : op = o := by cases op <;> cases o <;> first | rfl | cases same
  exact le

theorem Stops.current {limit : Nat} (stops : Stops limit ms) (faces : c.Faces ms) :
    c.current.kind ≠ .lparen ∧ c.current.kind ≠ .lbracket ∧
      ∀ o, BinOp.ofToken? c.current.kind = some o → o.precedence ≤ limit := by
  cases ms with
  | nil =>
    rw [faces.atEnd]
    exact ⟨nofun, nofun, nofun⟩
  | cons m ms =>
    cases m with
    | kind k =>
      rw [faces.kind]
      exact stops k rfl
    | single v =>
      obtain ⟨w, kind, -⟩ := Token.Kind.floatLit_of_mark faces.mark
      rw [kind]
      exact ⟨nofun, nofun, nofun⟩

/-- How tightly an expression holds together; what is no binary operator holds more tightly than any
of them. -/
def strength (e : Expr) : Nat :=
  (e.operator?.map BinOp.precedence).getD 7

theorem precedence_lt (op : BinOp) : op.precedence < 7 := by
  cases op <;> decide

theorem strength_atom {e : Expr} (atom : e.operator? = none) : strength e = 7 := by
  simp [strength, atom]

theorem strength_binary (n : Node) (op : BinOp) (lhs rhs : Expr) :
    strength (.binary n op lhs rhs) = op.precedence :=
  rfl

theorem le_strength {e : Expr} {limit : Nat} (low : limit ≤ 7)
    (h : ∀ o, e.operator? = some o → limit ≤ o.precedence) : limit ≤ strength e := by
  cases found : e.operator? with
  | none => rwa [strength_atom found]
  | some o => simpa [strength, found] using h o found

/-- An expression has been read again, and what follows it comes next. -/
def Reread (e : Expr) (rest : List Token.Mark) (e' : Expr) (d : Cursor) : Prop :=
  e'.bare = e.bare ∧ d.Faces rest

/-- The expression is read wherever its tokens come next. An operand is read as such; an expression
with operators is what the reader holds as left operand when it has come to the token behind it. -/
structure Legible (e : Expr) : Prop where
  operand {fuel : Nat} {c : Cursor} {rest : List Token.Mark} : e.operator? = none →
    8 * e.spell.length + 2 ≤ fuel → c.Faces (e.spell ++ rest) → Stops 7 rest →
    Yields c (unary fuel) (Reread e rest)
  climb {fuel min : Nat} {c : Cursor} {rest : List Token.Mark} : min < strength e →
    8 * e.spell.length + 3 ≤ fuel → c.Faces (e.spell ++ rest) → Stops (strength e) rest →
    ∃ fuel' e' d, fuel ≤ fuel' + 8 * e.spell.length ∧ Reread e rest e' d ∧
      binary fuel min c = Parse.climb fuel' min e' d

/-- The reader gives its left operand back if no operator follows that it may take. -/
theorem climb_stops {fuel min : Nat} {e : Expr} (faces : c.Faces rest) (stops : Stops min rest)
    (room : 0 < fuel) : Parse.climb fuel min e c = .ok e c := by
  obtain ⟨fuel, rfl⟩ := Nat.exists_eq_succ_of_ne_zero (by omega : fuel ≠ 0)
  have loose := (stops.current faces).2.2
  unfold Parse.climb
  refine lasting_bind_ok.mpr ⟨c.current.kind, c, rfl, ?_⟩
  cases found : BinOp.ofToken? c.current.kind with
  | none => rfl
  | some op =>
    dsimp only
    rw [if_pos (loose op found)]
    rfl

theorem Legible.binary {e : Expr} (legible : Legible e) {fuel min : Nat}
    (room : 8 * e.spell.length + 3 ≤ fuel) (above : min < strength e)
    (faces : c.Faces (e.spell ++ rest)) (stops : Stops min rest) :
    Yields c (Parse.binary fuel min) (Reread e rest) := by
  obtain ⟨fuel', e', d, left, reread, same⟩ :=
    legible.climb above room faces (stops.mono (Nat.le_of_lt above))
  exact ⟨e', d, by rw [same, climb_stops reread.2 stops (by omega)], reread⟩

/-- A whole expression, whose operators are all of its own. -/
theorem Legible.whole {e : Expr} (legible : Legible e) {fuel : Nat}
    (room : 8 * e.spell.length + 3 ≤ fuel) (faces : c.Faces (e.spell ++ rest))
    (stops : Stops 0 rest) : Yields c (Parse.binary fuel 0) (Reread e rest) := by
  refine legible.binary room ?_ faces stops
  refine Nat.lt_of_lt_of_le Nat.one_pos (le_strength (by omega) fun o _ => ?_)
  cases o <;> decide

/-- An expression without operators is a left operand as soon as it has been read. -/
theorem Legible.of_operand {e : Expr} (atom : e.operator? = none)
    (operand : ∀ {fuel : Nat} {c : Cursor} {rest : List Token.Mark},
      8 * e.spell.length + 2 ≤ fuel → c.Faces (e.spell ++ rest) → Stops 7 rest →
      Yields c (unary fuel) (Reread e rest)) (positive : 0 < e.spell.length) : Legible e where
  operand _ := operand
  climb {fuel min c rest} above room faces stops := by
    obtain ⟨fuel, rfl⟩ := Nat.exists_eq_succ_of_ne_zero (by omega : fuel ≠ 0)
    have within : 8 * e.spell.length + 2 ≤ fuel := by omega
    obtain ⟨e', d, read, reread⟩ := operand within faces (strength_atom atom ▸ stops)
    refine ⟨fuel, e', d, by omega, reread, ?_⟩
    unfold Parse.binary
    change EStateM.bind (unary fuel) (fun lhs => Parse.climb fuel min lhs) c = _
    rw [EStateM.bind, read]

/-- What neither starts with a sign nor is an operator is read as a primary expression. -/
theorem Legible.of_primary {e : Expr} {m : Token.Mark} {tail : List Token.Mark}
    (atom : e.operator? = none) (spells : e.spell = m :: tail)
    (unsigned : m ≠ .kind .minus ∧ m ≠ .kind .tilde)
    (primary : ∀ {fuel : Nat} {c : Cursor} {rest : List Token.Mark},
      8 * e.spell.length + 1 ≤ fuel → c.Faces (e.spell ++ rest) → Stops 7 rest →
      Yields c (Parse.primary fuel) (Reread e rest)) : Legible e := by
  refine .of_operand atom ?_ (by rw [spells, List.length_cons]; omega)
  intro fuel c rest room faces stops
  obtain ⟨fuel, rfl⟩ := Nat.exists_eq_succ_of_ne_zero (by omega : fuel ≠ 0)
  have mark : c.current.kind.mark = m := by
    rw [spells] at faces
    exact faces.mark
  unfold unary
  refine .look ?_
  split
  · rename_i minus
    rw [minus] at mark
    exact absurd mark.symm unsigned.1
  · rename_i tilde
    rw [tilde] at mark
    exact absurd mark.symm unsigned.2
  · exact primary (by omega) faces stops

/-- A node around what has been read. -/
theorem wrap_yields {α : Type} {start : Span} {build : Node → α} {q : α → Cursor → Prop}
    (faces : c.Faces ms) (own : ∀ n d, d.Faces ms → q (build n) d) :
    Yields c (do return build (← node start)) q :=
  (node_yields start faces).bind fun n d faces => .pure (own n d faces)

theorem legible_int (n : Node) {v : Int32} (written : 0 ≤ v.toInt) : Legible (.int n v) := by
  refine .of_primary rfl rfl ⟨nofun, nofun⟩ ?_
  intro fuel c rest room faces _
  obtain ⟨fuel, rfl⟩ := Nat.exists_eq_succ_of_ne_zero (by omega : fuel ≠ 0)
  have fits : (-0x80000000 ≤ v.toInt && v.toInt < 0x80000000) = true := by
    have := v.toInt_lt
    simp only [Bool.and_eq_true, decide_eq_true_eq]
    omega
  unfold primary
  refine .place (.look ?_)
  rw [Cursor.Faces.kind faces]
  refine (skip_yields faces).bind fun _ d faces => ?_
  rw [intValue, if_pos fits, pure_bind]
  refine wrap_yields faces fun n' e faces => ⟨?_, faces⟩
  rw [Expr.bare, Expr.bare, Int32.ofInt_toInt]

theorem legible_float (n : Node) {v : Float32} (written : v.isFinite = true) :
    Legible (.float n v) := by
  refine .of_primary rfl rfl ⟨nofun, nofun⟩ ?_
  intro fuel c rest room faces _
  obtain ⟨fuel, rfl⟩ := Nat.exists_eq_succ_of_ne_zero (by omega : fuel ≠ 0)
  obtain ⟨w, kind, rfl⟩ := Token.Kind.floatLit_of_mark (Cursor.Faces.mark faces)
  unfold primary
  refine .place (.look ?_)
  rw [kind]
  refine (skip_yields faces).bind fun _ d faces => ?_
  rw [floatValue, if_pos written, pure_bind]
  exact wrap_yields faces fun n' e faces => ⟨rfl, faces⟩

theorem legible_bool (n : Node) (b : Bool) : Legible (.bool n b) := by
  cases b with
  | true | false =>
    refine .of_primary rfl rfl ⟨by simp, by simp⟩ ?_
    intro fuel c rest room faces _
    obtain ⟨fuel, rfl⟩ := Nat.exists_eq_succ_of_ne_zero (by omega : fuel ≠ 0)
    unfold primary
    refine .place (.look ?_)
    rw [Cursor.Faces.kind faces]
    refine (skip_yields faces).bind fun _ d faces => ?_
    exact wrap_yields faces fun n' e faces => ⟨rfl, faces⟩

theorem legible_var (n : Node) (name : Ident) : Legible (.var n name) := by
  refine .of_primary rfl rfl ⟨nofun, nofun⟩ ?_
  intro fuel c rest room faces stops
  obtain ⟨fuel, rfl⟩ := Nat.exists_eq_succ_of_ne_zero (by omega : fuel ≠ 0)
  unfold primary
  refine .place (.look ?_)
  rw [Cursor.Faces.name faces]
  refine (ident_yields faces).bind_and fun name' d same faces => ?_
  obtain ⟨noCall, noIndex, -⟩ := stops.current faces
  refine .look ?_
  rw [if_neg noCall]
  refine (consume_passes faces noIndex).bind_and fun found e absent faces => ?_
  rw [absent]
  refine wrap_yields faces fun n' g faces => ⟨?_, faces⟩
  rw [Expr.bare, Expr.bare, same]

theorem legible_index (n : Node) (array : Ident) {i : Expr} (inner : Legible i) :
    Legible (.index n array i) := by
  refine .of_primary rfl rfl ⟨nofun, nofun⟩ ?_
  intro fuel c rest room faces stops
  obtain ⟨fuel, rfl⟩ := Nat.exists_eq_succ_of_ne_zero (by omega : fuel ≠ 0)
  simp only [Expr.spell, List.length_cons, List.length_append] at room
  simp only [Expr.spell, List.cons_append, List.append_assoc] at faces
  unfold primary
  refine .place (.look ?_)
  rw [faces.name]
  refine (ident_yields faces).bind_and fun array' d sameArray faces => ?_
  refine .look ?_
  rw [if_neg (by simp [faces.kind])]
  refine (consume_yields faces).bind_and fun found e yes faces => ?_
  rw [yes]
  refine (inner.whole (by omega) faces (.of_kind (by simp) (by simp) rfl)).bind_and
    fun i' g sameIndex faces => ?_
  refine (expect_yields faces).bind fun _ h faces => ?_
  refine wrap_yields faces fun n' j faces => ⟨?_, faces⟩
  rw [Expr.bare, Expr.bare, sameArray, sameIndex]

theorem legible_paren (n : Node) {i : Expr} (inner : Legible i) : Legible (.paren n i) := by
  refine .of_primary rfl rfl ⟨nofun, nofun⟩ ?_
  intro fuel c rest room faces stops
  obtain ⟨fuel, rfl⟩ := Nat.exists_eq_succ_of_ne_zero (by omega : fuel ≠ 0)
  simp only [Expr.spell, List.length_cons, List.length_append] at room
  simp only [Expr.spell, List.cons_append, List.append_assoc] at faces
  unfold primary
  refine .place (.look ?_)
  rw [faces.kind]
  refine (skip_yields faces).bind fun _ d faces => ?_
  refine (inner.whole (by omega) faces (.of_kind (by simp) (by simp) rfl)).bind_and
    fun i' e same faces => ?_
  refine (expect_yields faces).bind fun _ g faces => ?_
  refine wrap_yields faces fun n' h faces => ⟨?_, faces⟩
  rw [Expr.bare, Expr.bare, same]

/-- A token with which an expression can start. -/
def Starts : Token.Mark → Prop
  | .kind k => k.startsExpr = true
  | .single _ => True

theorem starts_cons : (e : Expr) → ∃ m tail, e.spell = m :: tail ∧ Starts m
  | .int .. | .float .. | .var .. | .index .. | .call .. | .paren .. => ⟨_, _, rfl, by trivial⟩
  | .bool _ b => by cases b <;> exact ⟨_, _, rfl, rfl⟩
  | .unary _ op _ => by cases op <;> exact ⟨_, _, rfl, rfl⟩
  | .binary _ op lhs rhs => by
    obtain ⟨m, tail, spells, starts⟩ := starts_cons lhs
    exact ⟨m, tail ++ .kind op.token :: rhs.spell, by rw [Expr.spell, spells]; rfl, starts⟩

/-- An expression starts with no token of any other kind. -/
theorem Cursor.Faces.starts {e : Expr} (faces : c.Faces (e.spell ++ rest)) :
    c.current.kind.startsExpr = true := by
  obtain ⟨m, tail, spells, starts⟩ := starts_cons e
  rw [spells] at faces
  cases m with
  | kind k =>
    rw [Cursor.Faces.kind faces]
    exact starts
  | single v =>
    obtain ⟨w, kind, -⟩ := Token.Kind.floatLit_of_mark (Cursor.Faces.mark faces)
    rw [kind]
    rfl

theorem spell_pos (e : Expr) : 0 < e.spell.length := by
  obtain ⟨m, tail, spells, -⟩ := starts_cons e
  rw [spells, List.length_cons]
  omega

theorem legible_unary (n : Node) (op : UnOp) {e : Expr} (inner : Legible e)
    (atom : e.operator? = none) : Legible (.unary n op e) := by
  refine .of_operand rfl ?_ (spell_pos _)
  intro fuel c rest room faces stops
  simp only [Expr.spell, List.length_cons] at room
  simp only [Expr.spell, List.cons_append] at faces
  obtain ⟨fuel, rfl⟩ : ∃ k, fuel = k + 2 := ⟨fuel - 2, by omega⟩
  have signed : Yields c (signed (fuel + 1) op) (Reread (.unary n op e) rest) := by
    unfold Parse.signed
    refine (advance_yields faces).bind fun t d faces => ?_
    refine (inner.operand atom (by omega) faces stops).bind_and fun e' g same faces => ?_
    refine (join_yields _ _ faces).bind fun n' h faces => .pure ⟨?_, faces⟩
    rw [Expr.bare, Expr.bare, same]
  unfold unary
  refine .look ?_
  rw [faces.kind]
  cases op with
  | neg | not => exact signed

theorem kind_bind {α : Type} (f : Token.Kind → Parse α) : (kind >>= f) c = f c.current.kind c :=
  rfl

/-- An operator and its right operand, as they are read behind a left operand. -/
def more (fuel : Nat) (op : BinOp) (lhs : Expr) : Parse Expr := do
  discard advance
  let rhs ← Parse.binary fuel op.precedence
  let node ← join lhs.span rhs.span
  return .binary node op lhs rhs

/-- The reader takes an operator that binds more tightly than `min`, and then goes on. -/
theorem climb_more {fuel min : Nat} {op : BinOp} {lhs : Expr}
    (found : BinOp.ofToken? c.current.kind = some op) (tight : min < op.precedence) :
    climb (fuel + 1) min lhs c = (more fuel op lhs >>= climb fuel min) c := by
  rw [Parse.climb, kind_bind, found]
  dsimp only
  rw [if_neg (Nat.not_le_of_lt tight), more]
  simp only [bind_assoc, pure_bind]

/-- After the left operand comes the operator, then the right operand, which ends where the whole
does. -/
theorem legible_binary (n : Node) (op : BinOp) {lhs rhs : Expr} (left : Legible lhs)
    (right : Legible rhs) (grouped : (Expr.binary n op lhs rhs).Grouped) :
    Legible (.binary n op lhs rhs) where
  operand atom := by cases atom
  climb {fuel min c rest} above room faces stops := by
    rw [strength_binary] at above stops
    simp only [Expr.spell, List.length_cons, List.length_append] at room
    simp only [Expr.spell, List.cons_append, List.append_assoc] at faces
    have leftAbove : op.precedence ≤ strength lhs :=
      le_strength (Nat.le_of_lt (precedence_lt op)) grouped.1
    have rightAbove : op.precedence < strength rhs := le_strength (precedence_lt op) grouped.2
    have within : 8 * lhs.spell.length + 3 ≤ fuel := by omega
    obtain ⟨k, lhs', d, spent, ⟨sameLeft, faces⟩, run⟩ :=
      left.climb (Nat.lt_of_lt_of_le above leftAbove) within faces (.of_operator leftAbove)
    obtain ⟨k, rfl⟩ := Nat.exists_eq_succ_of_ne_zero (by omega : k ≠ 0)
    have found : BinOp.ofToken? d.current.kind = some op := by
      rw [faces.kind]
      cases op <;> rfl
    have taken : Yields d (more k op lhs') (Reread (.binary n op lhs rhs) rest) := by
      refine (skip_yields faces).bind fun _ e faces => ?_
      refine (right.binary (by omega) rightAbove faces stops).bind_and
        fun rhs' g sameRight faces => ?_
      refine (join_yields _ _ faces).bind fun n' h faces => .pure ⟨?_, faces⟩
      rw [Expr.bare, Expr.bare, sameLeft, sameRight]
    obtain ⟨e', h, read, reread⟩ := taken
    refine ⟨k, e', h, ?_, reread, ?_⟩
    · simp only [Expr.spell, List.length_cons, List.length_append]
      omega
    · rw [run, climb_more found above]
      change EStateM.bind (more k op lhs') (Parse.climb k min) d = _
      rw [EStateM.bind, read]

/-- A list of expressions, names or the like may end here. -/
def Ends (ms : List Token.Mark) : Prop :=
  Stops 0 ms ∧ ms.head? ≠ some (.kind .comma)

theorem Ends.of_kind {k : Token.Kind} (noCall : k ≠ .lparen) (noIndex : k ≠ .lbracket)
    (noComma : k ≠ .comma) (noOperator : BinOp.ofToken? k = none) : Ends (.kind k :: ms) :=
  ⟨.of_kind noCall noIndex noOperator, by simpa using noComma⟩

theorem Ends.noComma (ends : Ends ms) (faces : c.Faces ms) : c.current.kind ≠ .comma := by
  cases ms with
  | nil => simp [faces.atEnd]
  | cons m ms =>
    intro comma
    have mark := faces.mark
    rw [comma] at mark
    exact ends.2 (by rw [← mark]; rfl)

/-- Readers of one item or more, with commas between them, read any such list whose items are
read. -/
theorem commas_yields {α : Type} {list : Nat → Parse (List α)} (item : Nat → Parse α)
    {spell : α → List Token.Mark} {bare : α → α}
    (opened : ∀ fuel, list (fuel + 1) = do
      let x ← item fuel
      if ← consume .comma then return x :: (← list fuel) else return [x])
    {xs : List α} (nonempty : xs ≠ [])
    (each : ∀ x ∈ xs, ∀ {fuel : Nat} {c : Cursor} {rest : List Token.Mark},
      8 * (spell x).length + 3 ≤ fuel → c.Faces (spell x ++ rest) → Stops 0 rest →
      Yields c (item fuel) fun x' d => bare x' = bare x ∧ d.Faces rest)
    {fuel : Nat} (room : 8 * (spellList spell xs).length + 4 ≤ fuel)
    (faces : c.Faces (spellList spell xs ++ rest)) (ends : Ends rest) :
    Yields c (list fuel) fun xs' d => xs'.map bare = xs.map bare ∧ d.Faces rest := by
  induction xs generalizing c fuel with
  | nil => exact absurd rfl nonempty
  | cons x xs ih =>
    obtain ⟨fuel, rfl⟩ := Nat.exists_eq_succ_of_ne_zero (by omega : fuel ≠ 0)
    rw [opened]
    cases xs with
    | nil =>
      rw [spellList] at room faces
      refine (each x (by simp) (by omega) faces ends.1).bind_and fun x' d same faces => ?_
      refine (consume_passes faces (ends.noComma faces)).bind_and fun found e absent faces => ?_
      rw [absent]
      exact .pure ⟨by simp [same], faces⟩
    | cons y ys =>
      rw [spellList] at room faces
      rw [List.append_assoc, List.cons_append] at faces
      rw [List.length_append, List.length_cons] at room
      refine (each x (by simp) (by omega) faces (.of_kind (by simp) (by simp) rfl)).bind_and
        fun x' d same faces => ?_
      refine (consume_yields faces).bind_and fun found e yes faces => ?_
      rw [yes]
      refine (ih (by simp) (fun z mem => each z (by simp [mem])) (by omega) faces).bind_and
        fun zs g rest faces => .pure ⟨?_, faces⟩
      rw [List.map_cons, same, rest, List.map_cons (l := y :: ys)]

/-- A list that is spelled starts with one of its items. -/
theorem exists_spellList_eq {α : Type} (spell : α → List Token.Mark) : {xs : List α} → xs ≠ [] →
    ∃ x ∈ xs, ∃ tail, spellList spell xs = spell x ++ tail
  | [], nonempty => absurd rfl nonempty
  | [x], _ => ⟨x, List.mem_cons_self, [], (List.append_nil _).symm⟩
  | x :: _ :: _, _ => ⟨x, List.mem_cons_self, _, rfl⟩

theorem spellAll_eq : (es : List Expr) → Expr.spellAll es = spellList Expr.spell es
  | [] => rfl
  | [_] => rfl
  | e :: e' :: es => by rw [Expr.spellAll, spellList, spellAll_eq (e' :: es)]

theorem bareAll_eq (es : List Expr) : Expr.bareAll es = es.map Expr.bare := by
  induction es with
  | nil => rfl
  | cons e es ih => rw [Expr.bareAll, List.map_cons, ih]

theorem exprs_yields {es : List Expr} (nonempty : es ≠ []) (legible : ∀ e ∈ es, Legible e)
    {fuel : Nat}
    (room : 8 * (Expr.spellAll es).length + 4 ≤ fuel) (faces : c.Faces (Expr.spellAll es ++ rest))
    (ends : Ends rest) :
    Yields c (exprs fuel) fun es' d => Expr.bareAll es' = Expr.bareAll es ∧ d.Faces rest := by
  rw [spellAll_eq] at room faces
  refine (commas_yields (fun fuel => Parse.binary fuel 0) (fun fuel => by rw [exprs]) nonempty
    (fun e mem => (legible e mem).whole) room faces ends).mono fun es' d ⟨same, faces⟩ => ?_
  exact ⟨by rw [bareAll_eq, bareAll_eq, same], faces⟩

/-- Arguments are in parentheses, and there may be none. -/
theorem args_yields {es : List Expr} (legible : ∀ e ∈ es, Legible e) {fuel : Nat}
    (room : 8 * (Expr.spellAll es).length + 9 ≤ fuel)
    (faces : c.Faces (.kind .lparen :: (Expr.spellAll es ++ .kind .rparen :: rest))) :
    Yields c (args fuel) fun es' d => Expr.bareAll es' = Expr.bareAll es ∧ d.Faces rest := by
  obtain ⟨fuel, rfl⟩ := Nat.exists_eq_succ_of_ne_zero (by omega : fuel ≠ 0)
  unfold args
  refine (expect_yields faces).bind fun _ d faces => .look ?_
  have after : ∀ {es' : List Expr} {e : Cursor}, Expr.bareAll es' = Expr.bareAll es →
      e.Faces (.kind .rparen :: rest) → Yields e (do expect .rparen; return es')
        fun es' d => Expr.bareAll es' = Expr.bareAll es ∧ d.Faces rest := by
    intro es' e same faces
    exact (expect_yields faces).bind fun _ g faces => .pure ⟨same, faces⟩
  by_cases empty : es = []
  · subst empty
    rw [if_pos faces.kind]
    exact after rfl faces
  · have starts : d.current.kind ≠ .rparen := by
      obtain ⟨e, -, tail, split⟩ := exists_spellList_eq Expr.spell empty
      rw [spellAll_eq, split, List.append_assoc] at faces
      intro closed
      have := Cursor.Faces.starts faces
      rw [closed] at this
      cases this
    rw [if_neg starts]
    refine (exprs_yields empty legible (by omega) faces
      (.of_kind (by simp) (by simp) (by simp) rfl)).bind_and
      fun es' e same faces => after same faces

theorem legible_call (n : Node) (callee : Ident) {es : List Expr} (inner : ∀ e ∈ es, Legible e) :
    Legible (.call n callee es) := by
  refine .of_primary rfl rfl ⟨nofun, nofun⟩ ?_
  intro fuel c rest room faces stops
  obtain ⟨fuel, rfl⟩ := Nat.exists_eq_succ_of_ne_zero (by omega : fuel ≠ 0)
  simp only [Expr.spell, List.length_cons, List.length_append] at room
  simp only [Expr.spell, List.cons_append, List.append_assoc] at faces
  unfold primary
  refine .place (.look ?_)
  rw [faces.name]
  refine (ident_yields faces).bind_and fun callee' d sameCallee faces => ?_
  refine .look ?_
  rw [if_pos faces.kind]
  refine (args_yields inner (by omega) faces).bind_and fun es' e sameArgs faces => ?_
  refine wrap_yields faces fun n' g faces => ⟨?_, faces⟩
  rw [Expr.bare, Expr.bare, sameCallee, sameArgs]

mutual

theorem legible : (e : Expr) → e.Writable → Legible e
  | .int n _, written => legible_int n written
  | .float n _, written => legible_float n written
  | .bool n b, _ => legible_bool n b
  | .var n name, _ => legible_var n name
  | .index n array i, written => legible_index n array (legible i written)
  | .call n callee args, written => legible_call n callee (legible_all args written)
  | .paren n inner, written => legible_paren n (legible inner written)
  | .unary n op operand, ⟨written, grouped⟩ => legible_unary n op (legible operand written) grouped
  | .binary n op lhs rhs, ⟨left, right, grouped⟩ =>
    legible_binary n op (legible lhs left) (legible rhs right) grouped

theorem legible_all : (es : List Expr) → Expr.WritableAll es → ∀ e ∈ es, Legible e
  | [], _ => by simp
  | e :: es, ⟨first, others⟩ => List.forall_mem_cons.mpr ⟨legible e first, legible_all es others⟩

end

/-- A whole expression is read wherever it may end. -/
theorem expr_yields {e : Expr} (written : e.Writable) {fuel : Nat}
    (room : 8 * e.spell.length + 3 ≤ fuel) (faces : c.Faces (e.spell ++ rest))
    (stops : Stops 0 rest) : Yields c (Parse.binary fuel 0) (Reread e rest) :=
  (legible e written).whole room faces stops

theorem idents_yields {names : List Ident} (nonempty : names ≠ []) {fuel : Nat}
    (room : 8 * (spellList (fun name => [name.mark]) names).length + 4 ≤ fuel)
    (faces : c.Faces (spellList (fun name => [name.mark]) names ++ rest)) (ends : Ends rest) :
    Yields c (idents fuel) fun names' d =>
      names'.map Ident.bare = names.map Ident.bare ∧ d.Faces rest :=
  commas_yields (fun _ => ident) (fun fuel => by rw [idents]) nonempty
    (fun _ _ {_ _ _} _ faces _ => ident_yields faces) room faces ends

/-- A parameter with its type, if it has one. -/
def param : Parse Param := do
  let ty ← if (← kind).isType then some <$> type else pure none
  let name ← ident
  return ⟨name, ty⟩

theorem param_yields {p : Param} (written : ∀ ty, p.ty = some ty → ty.isTerminal = true)
    (faces : c.Faces (p.spell ++ rest)) :
    Yields c param fun p' d => p'.bare = p.bare ∧ d.Faces rest := by
  obtain ⟨name, ty⟩ := p
  unfold param
  refine .look ?_
  cases ty with
  | none =>
    have noType : c.current.kind.isType = false := by
      rw [Cursor.Faces.name faces]
      rfl
    rw [noType]
    refine (ident_yields faces).bind_and fun name' d same faces => .pure ⟨?_, faces⟩
    rw [Param.bare, Param.bare, same]
  | some ty =>
    have terminal := written ty rfl
    have isType : c.current.kind.isType = true := by
      cases ty with
      | undefined | num => cases terminal
      | int | float | boolean =>
        rw [Cursor.Faces.kind faces]
        rfl
    rw [isType, if_pos rfl, bind_map_left]
    have faces : c.Faces (ty.spell ++ name.mark :: rest) := by
      simpa [Param.spell] using faces
    refine (type_yields terminal faces).bind_and fun ty' d sameTy faces => ?_
    refine (ident_yields faces).bind_and fun name' e same faces => .pure ⟨?_, faces⟩
    rw [Param.bare, Param.bare, same, sameTy]

theorem params_yields {ps : List Param} (nonempty : ps ≠ [])
    (written : ∀ p ∈ ps, ∀ ty, p.ty = some ty → ty.isTerminal = true) {fuel : Nat}
    (room : 8 * (spellList Param.spell ps).length + 4 ≤ fuel)
    (faces : c.Faces (spellList Param.spell ps ++ rest)) (ends : Ends rest) :
    Yields c (params fuel) fun ps' d => ps'.map Param.bare = ps.map Param.bare ∧ d.Faces rest := by
  refine commas_yields (fun _ => param) (fun fuel => ?_) nonempty
    (fun p mem {_ _ _} _ faces _ => param_yields (written p mem) faces) room faces ends
  rw [params, param, bind_assoc]
  congr
  funext k
  split
  · simp only [bind_assoc, pure_bind]
  · simp only [bind_assoc, pure_bind]

theorem target_yields {t : Target} (written : t.Writable) {fuel : Nat}
    (room : 8 * t.spell.length + 3 ≤ fuel) (faces : c.Faces (t.spell ++ rest))
    (stops : Stops 0 rest) :
    Yields c (target fuel) fun t' d => t'.bare = t.bare ∧ d.Faces rest := by
  unfold target
  cases t with
  | var name =>
    refine (ident_yields faces).bind_and fun name' d same faces => ?_
    refine (consume_passes faces (stops.current faces).2.1).bind_and fun found e absent faces => ?_
    rw [absent]
    exact .pure ⟨by rw [Target.bare, Target.bare, same], faces⟩
  | index array i =>
    simp only [Target.spell, List.length_cons, List.length_append] at room
    simp only [Target.spell, List.cons_append, List.append_assoc] at faces
    refine (ident_yields faces).bind_and fun array' d sameArray faces => ?_
    refine (consume_yields faces).bind_and fun found e yes faces => ?_
    rw [yes]
    refine (expr_yields written (by omega) faces (.of_kind (by simp) (by simp) rfl)).bind_and
      fun i' g sameIndex faces => ?_
    refine (expect_yields faces).bind fun _ h faces => .pure ⟨?_, faces⟩
    rw [Target.bare, Target.bare, sameArray, sameIndex]

theorem targets_yields {ts : List Target} (nonempty : ts ≠ []) (written : ∀ t ∈ ts, t.Writable)
    {fuel : Nat} (room : 8 * (spellList Target.spell ts).length + 4 ≤ fuel)
    (faces : c.Faces (spellList Target.spell ts ++ rest)) (ends : Ends rest) :
    Yields c (targets fuel) fun ts' d => ts'.map Target.bare = ts.map Target.bare ∧ d.Faces rest :=
  commas_yields target (fun fuel => by rw [targets]) nonempty
    (fun t mem => target_yields (written t mem)) room faces ends

/-- A token with which a statement can start. -/
def startsStmt : Token.Kind → Bool
  | .int | .float | .boolean | .proc | .fun | .ident _ | .input | .print | .if | .do | .lbrace
  | .return => true
  | _ => false

/-- What may come behind a statement: nothing, a semicolon, a closing brace or another statement.
Behind a `return` without a value, that statement does not start with a name. -/
def Follows (s : Stmt) (ms : List Token.Mark) : Prop :=
  ∀ m, ms.head? = some m → ∃ k, m = .kind k ∧ (k = .semicolon ∨ k = .rbrace ∨ startsStmt k = true) ∧
    (s.isBareReturn = true → ∀ x, k ≠ .ident x)

theorem Follows.ends {s : Stmt} (follows : Follows s ms) : Ends ms := by
  cases ms with
  | nil => exact ⟨.nil, nofun⟩
  | cons m ms =>
    obtain ⟨k, rfl, one, -⟩ := follows m rfl
    rcases one with rfl | rfl | starts
    · exact .of_kind (by simp) (by simp) (by simp) rfl
    · exact .of_kind (by simp) (by simp) (by simp) rfl
    · cases k with
      | int | float | boolean | proc | «fun» | ident | input | print | «if» | «do» | lbrace
      | «return» => exact .of_kind (by simp) (by simp) (by simp) rfl
      | _ => cases starts

/-- No value can be read behind a `return` that has none. -/
theorem Follows.noValue {s : Stmt} (follows : Follows s ms) (bare : s.isBareReturn = true)
    (faces : c.Faces ms) : c.current.kind.startsExpr = false := by
  cases ms with
  | nil =>
    rw [faces.atEnd]
    rfl
  | cons m ms =>
    obtain ⟨k, rfl, one, noName⟩ := follows m rfl
    rw [faces.kind]
    rcases one with rfl | rfl | starts
    · rfl
    · rfl
    · cases k with
      | ident x => exact absurd rfl (noName bare x)
      | _ => first | rfl | cases starts

/-- The statement is read wherever these tokens come next. -/
def Read (s : Stmt) (ms : List Token.Mark) : Prop :=
  ∀ {fuel : Nat} {c : Cursor} {rest : List Token.Mark}, 8 * ms.length + 2 ≤ fuel →
    c.Faces (ms ++ rest) → Follows s rest →
    Yields c (form fuel) fun build d => (∀ n, (build n).bare = s.bare) ∧ d.Faces rest

theorem Read.stmt {s : Stmt} (read : Read s ms) {fuel : Nat} (room : 8 * ms.length + 3 ≤ fuel)
    (faces : c.Faces (ms ++ rest)) (follows : Follows s rest) :
    Yields c (stmt fuel) fun s' d => s'.bare = s.bare ∧ d.Faces rest := by
  obtain ⟨fuel, rfl⟩ := Nat.exists_eq_succ_of_ne_zero (by omega : fuel ≠ 0)
  unfold Parse.stmt
  refine .place ((read (by omega) faces follows).bind_and fun build d same faces => ?_)
  exact wrap_yields faces fun n e faces => ⟨same n, faces⟩

theorem token_of_terminal {ty : Ty} (terminal : ty.isTerminal = true) :
    ∃ k, ty.spell = [.kind k] ∧ (k = .int ∨ k = .float ∨ k = .boolean) := by
  cases ty with
  | undefined | num => cases terminal
  | int | float | boolean => exact ⟨_, rfl, by simp⟩

/-- A statement that starts with a type is a declaration. -/
theorem declaration_yields {ty : Ty} (terminal : ty.isTerminal = true)
    (faces : c.Faces (ty.spell ++ ms)) {fuel : Nat} {post : (Node → Stmt) → Cursor → Prop}
    (h : Yields c (declaration fuel) post) : Yields c (form (fuel + 1)) post := by
  obtain ⟨k, spells, one⟩ := token_of_terminal terminal
  rw [spells] at faces
  unfold form
  refine .look ?_
  rw [Cursor.Faces.kind faces]
  rcases one with rfl | rfl | rfl
  · exact h
  · exact h
  · exact h

theorem read_varDecl (n : Node) {ty : Ty} {names : List Ident} (terminal : ty.isTerminal = true)
    (nonempty : names ≠ []) : Read (.varDecl n ty names) (Stmt.varDecl n ty names).spell := by
  intro fuel c rest room faces follows
  obtain ⟨k, spells, -⟩ := token_of_terminal terminal
  simp only [Stmt.spell, List.length_append, spells, List.length_singleton] at room
  simp only [Stmt.spell, List.append_assoc] at faces
  obtain ⟨fuel, rfl⟩ := Nat.exists_eq_succ_of_ne_zero (by omega : fuel ≠ 0)
  refine declaration_yields terminal faces ?_
  unfold declaration
  refine (type_yields terminal faces).bind_and fun ty' d sameTy faces => ?_
  have noBracket : d.current.kind ≠ .lbracket := by
    obtain ⟨name, -, tail, split⟩ := exists_spellList_eq (fun name => [Ident.mark name]) nonempty
    rw [split] at faces
    rw [Cursor.Faces.name faces]
    simp
  refine (consume_passes faces noBracket).bind_and fun found e absent faces => ?_
  rw [absent]
  refine (idents_yields nonempty (by omega) faces follows.ends).bind_and
    fun names' g sameNames faces => .pure ⟨fun n' => ?_, faces⟩
  rw [Stmt.bare, Stmt.bare, sameTy, sameNames]

theorem read_arrayDecl (n : Node) {ty : Ty} {size : Expr} {names : List Ident}
    (terminal : ty.isTerminal = true) (written : size.Writable) (nonempty : names ≠ []) :
    Read (.arrayDecl n ty size names) (Stmt.arrayDecl n ty size names).spell := by
  intro fuel c rest room faces follows
  obtain ⟨k, spells, -⟩ := token_of_terminal terminal
  simp only [Stmt.spell, List.length_append, List.length_cons, spells, List.length_nil] at room
  simp only [Stmt.spell, List.append_assoc, List.cons_append] at faces
  obtain ⟨fuel, rfl⟩ := Nat.exists_eq_succ_of_ne_zero (by omega : fuel ≠ 0)
  refine declaration_yields terminal faces ?_
  unfold declaration
  refine (type_yields terminal faces).bind_and fun ty' d sameTy faces => ?_
  refine (consume_yields faces).bind_and fun found e yes faces => ?_
  rw [yes]
  refine (expr_yields written (by omega) faces (.of_kind (by simp) (by simp) rfl)).bind_and
    fun size' g sameSize faces => ?_
  refine (expect_yields faces).bind fun _ h faces => ?_
  refine (idents_yields nonempty (by omega) faces follows.ends).bind_and
    fun names' i sameNames faces => .pure ⟨fun n' => ?_, faces⟩
  rw [Stmt.bare, Stmt.bare, sameTy, sameSize, sameNames]

/-- Behind the first name of an assignment stands a bracket, a comma or the arrow. -/
theorem targets_peek {ts : List Target} (nonempty : ts ≠ [])
    (faces : c.Faces (spellList Target.spell ts ++ .kind .assign :: rest)) :
    (∃ x, c.current.kind = .ident x) ∧ c.peek.kind ≠ .lparen := by
  obtain ⟨t, more, rfl⟩ := List.exists_cons_of_ne_nil nonempty
  cases t with
  | var name =>
    cases more with
    | nil => exact ⟨⟨_, Cursor.Faces.name faces⟩, by simp [Cursor.Faces.peek faces]⟩
    | cons t more => exact ⟨⟨_, Cursor.Faces.name faces⟩, by simp [Cursor.Faces.peek faces]⟩
  | index array i =>
    cases more with
    | nil => exact ⟨⟨_, Cursor.Faces.name faces⟩, by simp [Cursor.Faces.peek faces]⟩
    | cons t more => exact ⟨⟨_, Cursor.Faces.name faces⟩, by simp [Cursor.Faces.peek faces]⟩

theorem read_assign (n : Node) {targets : List Target} {values : List Expr} (some : targets ≠ [])
    (written : ∀ t ∈ targets, t.Writable) (some' : values ≠ [])
    (written' : Expr.WritableAll values) :
    Read (.assign n targets values) (Stmt.assign n targets values).spell := by
  intro fuel c rest room faces follows
  simp only [Stmt.spell, List.length_append, List.length_cons] at room
  simp only [Stmt.spell, List.append_assoc, List.cons_append] at faces
  obtain ⟨fuel, rfl⟩ := Nat.exists_eq_succ_of_ne_zero (by omega : fuel ≠ 0)
  obtain ⟨⟨x, name⟩, noCall⟩ := targets_peek some faces
  unfold form
  refine .look ?_
  rw [name]
  refine .state ?_
  rw [if_neg noCall]
  unfold assignment
  refine (targets_yields some written (by omega) faces
    (.of_kind (by simp) (by simp) (by simp) rfl)).bind_and fun targets' d sameTargets faces => ?_
  refine (expect_yields faces).bind fun _ e faces => ?_
  refine (exprs_yields some' (legible_all values written') (by omega) faces follows.ends).bind_and
    fun values' g sameValues faces => .pure ⟨fun n' => ?_, faces⟩
  rw [Stmt.bare, Stmt.bare, sameTargets, sameValues]

theorem read_call (n : Node) (callee : Ident) {args : List Expr} (written : Expr.WritableAll args) :
    Read (.call n callee args) (Stmt.call n callee args).spell := by
  intro fuel c rest room faces follows
  simp only [Stmt.spell, List.length_append, List.length_cons, List.length_nil] at room
  simp only [Stmt.spell, List.append_assoc, List.cons_append, List.nil_append] at faces
  obtain ⟨fuel, rfl⟩ := Nat.exists_eq_succ_of_ne_zero (by omega : fuel ≠ 0)
  unfold form
  refine .look ?_
  rw [faces.name]
  refine .state ?_
  rw [if_pos faces.peek]
  refine (ident_yields faces).bind_and fun callee' d sameCallee faces => ?_
  refine (args_yields (legible_all args written) (by omega) faces).bind_and
    fun args' e sameArgs faces => .pure ⟨fun n' => ?_, faces⟩
  rw [Stmt.bare, Stmt.bare, sameCallee, sameArgs]

theorem read_input (n : Node) {names : List Ident} (nonempty : names ≠ []) :
    Read (.input n names) (Stmt.input n names).spell := by
  intro fuel c rest room faces follows
  simp only [Stmt.spell, List.length_cons] at room
  simp only [Stmt.spell, List.cons_append] at faces
  obtain ⟨fuel, rfl⟩ := Nat.exists_eq_succ_of_ne_zero (by omega : fuel ≠ 0)
  unfold form
  refine .look ?_
  rw [faces.kind]
  refine (skip_yields faces).bind fun _ d faces => ?_
  refine (idents_yields nonempty (by omega) faces follows.ends).bind_and
    fun names' e same faces => .pure ⟨fun n' => ?_, faces⟩
  rw [Stmt.bare, Stmt.bare, same]

theorem read_print (n : Node) {value : Expr} (written : value.Writable) :
    Read (.print n value) (Stmt.print n value).spell := by
  intro fuel c rest room faces follows
  simp only [Stmt.spell, List.length_cons] at room
  simp only [Stmt.spell, List.cons_append] at faces
  obtain ⟨fuel, rfl⟩ := Nat.exists_eq_succ_of_ne_zero (by omega : fuel ≠ 0)
  unfold form
  refine .look ?_
  rw [faces.kind]
  refine (skip_yields faces).bind fun _ d faces => ?_
  refine (expr_yields written (by omega) faces follows.ends.1).bind_and
    fun value' e same faces => .pure ⟨fun n' => ?_, faces⟩
  rw [Stmt.bare, Stmt.bare, same]

theorem read_ret (n : Node) {value : Option Expr} (written : ∀ e, value = some e → e.Writable) :
    Read (.ret n value) (Stmt.ret n value).spell := by
  intro fuel c rest room faces follows
  cases value with
  | none =>
    simp only [Stmt.spell, List.length_singleton] at room
    simp only [Stmt.spell, List.cons_append, List.nil_append] at faces
    obtain ⟨fuel, rfl⟩ := Nat.exists_eq_succ_of_ne_zero (by omega : fuel ≠ 0)
    unfold form
    refine .look ?_
    rw [faces.kind]
    refine (skip_yields faces).bind fun _ d faces => .look ?_
    rw [follows.noValue rfl faces]
    exact .pure ⟨fun n' => rfl, faces⟩
  | some value =>
    simp only [Stmt.spell, List.length_cons] at room
    simp only [Stmt.spell, List.cons_append] at faces
    obtain ⟨fuel, rfl⟩ := Nat.exists_eq_succ_of_ne_zero (by omega : fuel ≠ 0)
    unfold form
    refine .look ?_
    rw [faces.kind]
    refine (skip_yields faces).bind fun _ d faces => .look ?_
    rw [if_pos (Cursor.Faces.starts faces)]
    refine (expr_yields (written value rfl) (by omega) faces follows.ends.1).bind_and
      fun value' e same faces => .pure ⟨fun n' => ?_, faces⟩
    rw [Stmt.bare, Stmt.bare, Option.map_some, Option.map_some, same]

/-- The statements of a body end here: at the brace that closes a block or at the end of the text. -/
def Closing (close : Token.Kind) (ms : List Token.Mark) : Prop :=
  close = .rbrace ∧ ms.head? = some (.kind .rbrace) ∨ close = .eof ∧ ms = []

/-- The statements are read wherever these tokens come next. -/
def BodyRead (ss : List Stmt) (ms : List Token.Mark) : Prop :=
  ∀ {fuel : Nat} {c : Cursor} {close : Token.Kind} {rest : List Token.Mark},
    8 * ms.length + 4 ≤ fuel → c.Faces (ms ++ rest) → Closing close rest →
    Yields c (stmts fuel close) fun ss' d => Stmt.bareAll ss' = Stmt.bareAll ss ∧ d.Faces rest

/-- The guards are read wherever these tokens and the keyword that closes them come next. -/
def GuardsRead (gs : List Guard) (ms : List Token.Mark) : Prop :=
  ∀ {fuel : Nat} {c : Cursor} {close : Token.Kind} {rest : List Token.Mark},
    close = .fi ∨ close = .od → 8 * ms.length + 4 ≤ fuel → c.Faces (ms ++ .kind close :: rest) →
    Yields c (guards fuel close) fun gs' d => Guard.bareAll gs' = Guard.bareAll gs ∧ d.Faces rest

theorem block_yields {ss : List Stmt} {inner : List Token.Mark} (body : BodyRead ss inner)
    {fuel : Nat} (room : 8 * inner.length + 5 ≤ fuel)
    (faces : c.Faces (.kind .lbrace :: (inner ++ .kind .rbrace :: rest))) :
    Yields c (block fuel) fun b d => Stmt.bareAll b.2 = Stmt.bareAll ss ∧ d.Faces rest := by
  obtain ⟨fuel, rfl⟩ := Nat.exists_eq_succ_of_ne_zero (by omega : fuel ≠ 0)
  unfold block
  refine .place ((expect_yields faces).bind fun _ d faces => ?_)
  refine (body (by omega) faces (.inl ⟨rfl, rfl⟩)).bind_and fun ss' e same faces => ?_
  refine (expect_yields faces).bind fun _ g faces => ?_
  exact wrap_yields faces fun n h faces => ⟨same, faces⟩

theorem read_block (n b : Node) {ss : List Stmt} {inner : List Token.Mark}
    (body : BodyRead ss inner) :
    Read (.block n b ss) (.kind .lbrace :: (inner ++ [.kind .rbrace])) := by
  intro fuel c rest room faces follows
  simp only [List.length_cons, List.length_append, List.length_nil] at room
  simp only [List.cons_append, List.append_assoc, List.nil_append] at faces
  obtain ⟨fuel, rfl⟩ := Nat.exists_eq_succ_of_ne_zero (by omega : fuel ≠ 0)
  unfold form
  refine .look ?_
  rw [faces.kind]
  refine (block_yields body (by omega) faces).bind ?_
  rintro ⟨inner', body'⟩ d ⟨same, faces⟩
  refine .pure ⟨fun n' => ?_, faces⟩
  rw [Stmt.bare, Stmt.bare, same]

theorem read_alternative (n : Node) {gs : List Guard} {inner : List Token.Mark}
    (each : GuardsRead gs inner) :
    Read (.alternative n gs) (.kind .if :: (inner ++ [.kind .fi])) := by
  intro fuel c rest room faces follows
  simp only [List.length_cons, List.length_append, List.length_nil] at room
  simp only [List.cons_append, List.append_assoc, List.nil_append] at faces
  obtain ⟨fuel, rfl⟩ := Nat.exists_eq_succ_of_ne_zero (by omega : fuel ≠ 0)
  unfold form
  refine .look ?_
  rw [faces.kind]
  refine (skip_yields faces).bind fun _ d faces => ?_
  refine (each (.inl rfl) (by omega) faces).bind_and
    fun gs' e same faces => .pure ⟨fun n' => ?_, faces⟩
  rw [Stmt.bare, Stmt.bare, same]

theorem read_iterative (n : Node) {gs : List Guard} {inner : List Token.Mark}
    (each : GuardsRead gs inner) :
    Read (.iterative n gs) (.kind .do :: (inner ++ [.kind .od])) := by
  intro fuel c rest room faces follows
  simp only [List.length_cons, List.length_append, List.length_nil] at room
  simp only [List.cons_append, List.append_assoc, List.nil_append] at faces
  obtain ⟨fuel, rfl⟩ := Nat.exists_eq_succ_of_ne_zero (by omega : fuel ≠ 0)
  unfold form
  refine .look ?_
  rw [faces.kind]
  refine (skip_yields faces).bind fun _ d faces => ?_
  refine (each (.inr rfl) (by omega) faces).bind_and
    fun gs' e same faces => .pure ⟨fun n' => ?_, faces⟩
  rw [Stmt.bare, Stmt.bare, same]

/-- Parameters start with a type or a name. -/
theorem params_start {ps : List Param} (nonempty : ps ≠ [])
    (written : ∀ p ∈ ps, ∀ ty, p.ty = some ty → ty.isTerminal = true)
    (faces : c.Faces (spellList Param.spell ps ++ rest)) : c.current.kind ≠ .rparen := by
  obtain ⟨p, mem, tail, split⟩ := exists_spellList_eq Param.spell nonempty
  rw [split, List.append_assoc] at faces
  cases given : p.ty with
  | none =>
    simp only [Param.spell, given, Option.map_none, Option.getD_none, List.nil_append] at faces
    rw [Cursor.Faces.name faces]
    simp
  | some ty =>
    obtain ⟨k, spells, one⟩ := token_of_terminal (written p mem ty given)
    simp only [Param.spell, given, Option.map_some, Option.getD_some, spells, List.cons_append]
      at faces
    rw [faces.kind]
    rcases one with rfl | rfl | rfl <;> simp

/-- The heading of a method, of a function if it has a result. -/
theorem signature_yields {name : Ident} {params : List Param} {result : Option Ty}
    (written : ∀ p ∈ params, ∀ ty, p.ty = some ty → ty.isTerminal = true)
    (terminal : ∀ ty, result = some ty → ty.isTerminal = true) {fuel : Nat}
    (room : 8 * (spellHead name params result).length ≤ fuel)
    (faces : c.Faces (spellHead name params result ++ rest)) :
    Yields c (signature fuel result.isSome) fun head d =>
      head.1.bare = name.bare ∧ head.2.1.map Param.bare = params.map Param.bare ∧
        head.2.2 = result ∧ d.Faces rest := by
  simp only [spellHead, List.length_cons, List.length_append] at room
  simp only [spellHead, List.cons_append, List.append_assoc] at faces
  unfold signature
  refine (skip_yields faces).bind fun _ d faces => ?_
  refine (ident_yields faces).bind_and fun name' e sameName faces => ?_
  refine (expect_yields faces).bind fun _ g faces => .look ?_
  extract_lets result?
  have after : ∀ {ps : List Param} {d : Cursor}, ps.map Param.bare = params.map Param.bare →
      d.Faces (.kind .rparen ::
        ((result.map fun ty => .kind .colon :: ty.spell).getD [] ++ rest)) →
      Yields d (result? ps) fun head d => head.1.bare = name.bare ∧
        head.2.1.map Param.bare = params.map Param.bare ∧ head.2.2 = result ∧ d.Faces rest := by
    intro ps d samePs faces
    refine (expect_yields faces).bind fun _ e faces => ?_
    cases result with
    | none => exact .pure ⟨sameName, samePs, rfl, faces⟩
    | some ty =>
      rw [Option.isSome_some, if_pos rfl]
      refine (expect_yields faces).bind fun _ g faces => ?_
      refine (type_yields (terminal ty rfl) faces).bind_and fun ty' h sameTy faces => ?_
      exact .pure ⟨sameName, samePs, by rw [sameTy], faces⟩
  by_cases empty : params = []
  · subst empty
    rw [if_pos faces.kind]
    exact after rfl faces
  · rw [if_neg (params_start empty written faces)]
    refine (params_yields empty written (by omega) faces
      (.of_kind (by simp) (by simp) (by simp) rfl)).bind_and fun ps e samePs faces => after samePs faces

theorem read_method (n b : Node) (name : Ident) {params : List Param} {result : Option Ty}
    {ss : List Stmt} {inner : List Token.Mark}
    (written : ∀ p ∈ params, ∀ ty, p.ty = some ty → ty.isTerminal = true)
    (terminal : ∀ ty, result = some ty → ty.isTerminal = true) (body : BodyRead ss inner) :
    Read (.method n name params result b ss)
      (spellHead name params result ++ .kind .lbrace :: (inner ++ [.kind .rbrace])) := by
  intro fuel c rest room faces follows
  simp only [List.length_cons, List.length_append, List.length_nil] at room
  simp only [List.cons_append, List.append_assoc, List.nil_append] at faces
  obtain ⟨fuel, rfl⟩ : ∃ k, fuel = k + 2 := ⟨fuel - 2, by omega⟩
  have method : Yields c (Parse.method (fuel + 1) result.isSome) fun build d =>
      (∀ n', (build n').bare = (Stmt.method n name params result b ss).bare) ∧ d.Faces rest := by
    unfold Parse.method
    refine (signature_yields written terminal (by omega) faces).bind ?_
    rintro ⟨name', params', result'⟩ d ⟨sameName, sameParams, sameResult, faces⟩
    refine (block_yields body (by omega) faces).bind ?_
    rintro ⟨inner', body'⟩ e ⟨sameBody, faces⟩
    refine .pure ⟨fun n' => ?_, faces⟩
    dsimp only at sameName sameParams sameResult sameBody
    rw [Stmt.bare, Stmt.bare, sameName, sameParams, sameResult, sameBody]
  unfold form
  refine .look ?_
  rw [spellHead, List.cons_append] at faces
  rw [faces.kind]
  cases result with
  | none => exact method
  | some ty => exact method

/-- A statement starts with a token of its own, which is a name only if it starts with one. -/
theorem written_head : {s : Stmt} → s.Writable → s.Written ms →
    ∃ k tail, ms = .kind k :: tail ∧ startsStmt k = true ∧
      (s.startsWithName = false → ∀ x, k ≠ .ident x)
  | .varDecl _ ty names, formed, written => by
    obtain ⟨k, spells, one⟩ := token_of_terminal formed.1
    refine ⟨k, _, by rw [written, Stmt.spell, spells]; rfl, ?_, fun _ x => ?_⟩
    · rcases one with rfl | rfl | rfl <;> rfl
    · rcases one with rfl | rfl | rfl <;> simp
  | .arrayDecl _ ty size names, formed, written => by
    obtain ⟨k, spells, one⟩ := token_of_terminal formed.1
    refine ⟨k, _, by rw [written, Stmt.spell, spells]; rfl, ?_, fun _ x => ?_⟩
    · rcases one with rfl | rfl | rfl <;> rfl
    · rcases one with rfl | rfl | rfl <;> simp
  | .method _ _ _ result _ _, _, ⟨_, _, same⟩ => by
    refine ⟨_, _, same, ?_, fun _ x => ?_⟩
    · cases result <;> rfl
    · cases result <;> simp
  | .assign _ targets _, formed, written => by
    obtain ⟨t, more, rfl⟩ := List.exists_cons_of_ne_nil formed.1
    cases t <;> cases more <;> exact ⟨_, _, written, rfl, fun named => by cases named⟩
  | .alternative .., _, ⟨_, _, same⟩ | .iterative .., _, ⟨_, _, same⟩ | .block .., _, ⟨_, _, same⟩ =>
    ⟨_, _, same, rfl, by simp⟩
  | .input .., _, same | .print .., _, same | .ret _ none, _, same | .ret _ (some _), _, same =>
    ⟨_, _, same, rfl, by simp⟩
  | .call .., _, same => ⟨_, _, same, rfl, fun named => by cases named⟩

theorem Closing.current {close : Token.Kind} (closing : Closing close ms) (faces : c.Faces ms) :
    c.current.kind = close := by
  rcases closing with ⟨rfl, first⟩ | ⟨rfl, rfl⟩
  · obtain ⟨tail, rfl⟩ := List.head?_eq_some_iff.mp first
    exact faces.kind
  · exact faces.atEnd

/-- What comes behind a statement of a body: the first token of the next one, or the end of the
body. -/
theorem follows_body {s : Stmt} {ss : List Stmt} {more : List Token.Mark} {close : Token.Kind}
    (formed : Stmt.WritableAll ss) (written : Stmt.WrittenAll ss more)
    (apart : s.mayPrecede ss = true) (closing : Closing close rest) : Follows s (more ++ rest) := by
  intro m first
  cases ss with
  | nil =>
    obtain rfl : more = [] := written
    rcases closing with ⟨-, brace⟩ | ⟨-, rfl⟩
    · obtain rfl : m = .kind .rbrace := Option.some.inj (first.symm.trans brace)
      exact ⟨_, rfl, .inr (.inl rfl), by simp⟩
    · cases first
  | cons t ts =>
    obtain ⟨front, back, own, -, joined⟩ := written
    obtain ⟨k, tail, rfl, starts, noName⟩ := written_head formed.1 own
    obtain rfl : m = .kind k := by
      rcases joined with rfl | ⟨-, rfl⟩
      · exact (Option.some.inj first).symm
      · exact (Option.some.inj first).symm
    refine ⟨k, rfl, .inr (.inr starts), fun bare => noName ?_⟩
    simpa [Stmt.mayPrecede, bare] using apart

theorem bodyRead_nil : BodyRead [] [] := by
  intro fuel c close rest room faces closing
  obtain ⟨fuel, rfl⟩ := Nat.exists_eq_succ_of_ne_zero (by omega : fuel ≠ 0)
  unfold stmts
  refine .look ?_
  rw [if_pos (by simp [closing.current faces])]
  exact .pure ⟨rfl, faces⟩

theorem semicolon_yields (faces : c.Faces (.kind .semicolon :: ms)) :
    Yields c (discard (consume .semicolon)) fun _ d => d.Faces ms :=
  (consume_yields faces).discard.mono fun _ _ ⟨_, _, faces⟩ => faces

/-- A semicolon that is left out is not missed. -/
theorem semicolon_passes {s : Stmt} {ss : List Stmt} {more : List Token.Mark} {close : Token.Kind}
    (formed : Stmt.WritableAll ss) (written : Stmt.WrittenAll ss more)
    (apart : s.mayPrecede ss = true) (closing : Closing close rest) (faces : c.Faces (more ++ rest)) :
    Yields c (discard (consume .semicolon)) fun _ d => d.Faces (more ++ rest) := by
  have other : c.current.kind ≠ .semicolon := by
    cases ss with
    | nil =>
      obtain rfl : more = [] := written
      rw [closing.current faces]
      rcases closing with ⟨rfl, -⟩ | ⟨rfl, -⟩ <;> simp
    | cons t ts =>
      obtain ⟨front, back, own, -, joined⟩ := written
      obtain ⟨k, tail, rfl, starts, -⟩ := written_head formed.1 own
      have kind : c.current.kind = k := by
        rcases joined with rfl | ⟨-, rfl⟩
        · exact Cursor.Faces.kind faces
        · exact Cursor.Faces.kind faces
      rw [kind]
      rintro rfl
      cases starts
  exact (consume_passes faces other).discard.mono fun _ _ ⟨_, _, faces⟩ => faces

theorem bodyRead_cons {s : Stmt} {ss : List Stmt} {front back : List Token.Mark}
    (formed : Stmt.WritableAll (s :: ss)) (own : s.Written front) (others : Stmt.WrittenAll ss back)
    (read : Read s front) (body : BodyRead ss back)
    (joined : ms = front ++ .kind .semicolon :: back ∨ s.mayPrecede ss = true ∧ ms = front ++ back) :
    BodyRead (s :: ss) ms := by
  intro fuel c close rest room faces closing
  obtain ⟨fuel, rfl⟩ := Nat.exists_eq_succ_of_ne_zero (by omega : fuel ≠ 0)
  obtain ⟨k, tail, head, starts, -⟩ := written_head formed.1 own
  have kind : c.current.kind = k := by
    rcases joined with rfl | ⟨-, rfl⟩
    · rw [head] at faces
      exact Cursor.Faces.kind faces
    · rw [head] at faces
      exact Cursor.Faces.kind faces
  have goesOn : ¬ (c.current.kind = close || c.current.kind = .eof) = true := by
    rw [kind]
    rcases closing with ⟨rfl, -⟩ | ⟨rfl, -⟩
    · cases k with
      | rbrace | eof => cases starts
      | _ => simp
    · cases k with
      | eof => cases starts
      | _ => simp
  have length : 0 < front.length := by
    rw [head, List.length_cons]
    omega
  have remaining : ∀ {d : Cursor} {s' : Stmt}, s'.bare = s.bare → d.Faces (back ++ rest) →
      8 * back.length + 4 ≤ fuel →
      Yields d (do return s' :: (← stmts fuel close)) fun ss' e =>
        Stmt.bareAll ss' = Stmt.bareAll (s :: ss) ∧ e.Faces rest := by
    intro d s' same faces room
    refine (body room faces closing).bind_and fun ss' e sameRest faces => .pure ⟨?_, faces⟩
    rw [Stmt.bareAll, Stmt.bareAll, same, sameRest]
  unfold stmts
  refine .look ?_
  rw [if_neg goesOn]
  rcases joined with rfl | ⟨apart, rfl⟩
  · simp only [List.length_append, List.length_cons] at room
    simp only [List.append_assoc, List.cons_append] at faces
    have follows : Follows s (.kind .semicolon :: (back ++ rest)) := by
      intro m first
      obtain rfl := Option.some.inj first
      exact ⟨_, rfl, .inl rfl, by simp⟩
    refine (read.stmt (by omega) faces follows).bind_and fun s' d same faces => ?_
    exact (semicolon_yields faces).bind fun _ e faces => remaining same faces (by omega)
  · simp only [List.length_append] at room
    simp only [List.append_assoc] at faces
    refine (read.stmt (by omega) faces (follows_body formed.2 others apart closing)).bind_and
      fun s' d same faces => ?_
    exact (semicolon_passes formed.2 others apart closing faces).bind
      fun _ e faces => remaining same faces (by omega)

/-- A guard, with the guards behind it or the closing keyword. -/
theorem guardsRead_cons (n : Node) {cond : Expr} {body : Stmt} {gs : List Guard}
    {front back : List Token.Mark} (formed : cond.Writable) (read : Read body front)
    (others : gs = [] ∧ back = [] ∨ GuardsRead gs back ∧ ∃ (e : Expr) (tail : List Token.Mark),
      back = e.spell ++ tail) :
    GuardsRead (.mk n cond body :: gs)
      (cond.spell ++ .kind .guard :: (front ++ .kind .semicolon :: back)) := by
  intro fuel c close rest closes room faces
  simp only [List.length_append, List.length_cons] at room
  simp only [List.append_assoc, List.cons_append] at faces
  obtain ⟨fuel, rfl⟩ := Nat.exists_eq_succ_of_ne_zero (by omega : fuel ≠ 0)
  unfold guards
  refine .place ((expr_yields formed (by omega) faces (.of_kind (by simp) (by simp) rfl)).bind_and
    fun cond' d sameCond faces => ?_)
  refine (expect_yields faces).bind fun _ e faces => ?_
  have follows : Follows body (.kind .semicolon :: (back ++ .kind close :: rest)) := by
    intro m first
    obtain rfl := Option.some.inj first
    exact ⟨_, rfl, .inl rfl, by simp⟩
  refine (read.stmt (by omega) faces follows).bind_and fun body' g sameBody faces => ?_
  refine (semicolon_yields faces).bind fun _ h faces => ?_
  refine (node_yields _ faces).bind fun n' i faces => ?_
  rcases others with ⟨rfl, rfl⟩ | ⟨more, e', tail, rfl⟩
  · refine (consume_yields faces).bind_and fun found j yes faces => ?_
    rw [yes]
    exact .pure ⟨by simp only [Guard.bareAll, sameCond, sameBody], faces⟩
  · have starts : i.current.kind.startsExpr = true := by
      rw [List.append_assoc] at faces
      exact Cursor.Faces.starts faces
    have other : i.current.kind ≠ close := by
      intro same
      rw [same] at starts
      rcases closes with rfl | rfl <;> cases starts
    refine (consume_passes faces other).bind_and fun found j absent faces => ?_
    rw [absent, if_neg Bool.false_ne_true]
    refine .look ?_
    have goesOn : j.current.kind ≠ .eof := by
      intro atEnd
      rw [List.append_assoc] at faces
      have starts := Cursor.Faces.starts faces
      rw [atEnd] at starts
      cases starts
    rw [if_neg goesOn]
    refine (more closes (by omega) faces).bind_and fun gs' l sameRest faces => .pure ⟨?_, faces⟩
    rw [Guard.bareAll, Guard.bareAll, sameCond, sameBody, sameRest]

mutual

/-- Every statement that can be written is read wherever it is written. -/
theorem stmt_read : (s : Stmt) → {ms : List Token.Mark} → s.Writable → s.Written ms → Read s ms
  | .varDecl n _ _, _, ⟨terminal, nonempty⟩, rfl => read_varDecl n terminal nonempty
  | .arrayDecl n _ _ _, _, ⟨terminal, size, nonempty⟩, rfl =>
    read_arrayDecl n terminal size nonempty
  | .method n name _ _ b body, _, ⟨params, terminal, formed⟩, ⟨_, written, rfl⟩ =>
    read_method n b name params terminal (body_read body formed written)
  | .assign n _ _, _, ⟨nonempty, targets, nonempty', values⟩, rfl =>
    read_assign n nonempty targets nonempty' values
  | .input n _, _, nonempty, rfl => read_input n nonempty
  | .print n _, _, value, rfl => read_print n value
  | .alternative n guards, _, ⟨nonempty, formed⟩, ⟨_, written, rfl⟩ =>
    read_alternative n (guards_read guards nonempty formed written)
  | .iterative n guards, _, ⟨nonempty, formed⟩, ⟨_, written, rfl⟩ =>
    read_iterative n (guards_read guards nonempty formed written)
  | .block n b body, _, formed, ⟨_, written, rfl⟩ => read_block n b (body_read body formed written)
  | .ret n _, _, value, rfl => read_ret n value
  | .call n callee _, _, args, rfl => read_call n callee args

theorem body_read : (ss : List Stmt) → {ms : List Token.Mark} → Stmt.WritableAll ss →
    Stmt.WrittenAll ss ms → BodyRead ss ms
  | [], _, _, rfl => bodyRead_nil
  | s :: ss, _, formed, ⟨_, _, own, others, joined⟩ =>
    bodyRead_cons formed own others (stmt_read s formed.1 own) (body_read ss formed.2 others) joined

theorem guards_read : (gs : List Guard) → {ms : List Token.Mark} → gs ≠ [] →
    Guard.WritableAll gs → Guard.WrittenAll gs ms → GuardsRead gs ms
  | [], _, nonempty, _, _ => absurd rfl nonempty
  | [.mk n _ body], _, _, ⟨cond, own, _⟩, ⟨_, _, written, rfl, rfl⟩ =>
    guardsRead_cons n cond (stmt_read body own written) (.inl ⟨rfl, rfl⟩)
  | .mk n _ body :: .mk n' e s :: gs, _, _, ⟨cond, own, others⟩, ⟨_, _, written, more, rfl⟩ => by
    refine guardsRead_cons n cond (stmt_read body own written) (.inr ⟨?_, ?_⟩)
    · exact guards_read (.mk n' e s :: gs) (by simp) others more
    · obtain ⟨_, _, -, -, rfl⟩ := more
      exact ⟨e, _, rfl⟩

end

/-- A program is read to the end of the text. -/
theorem program_yields {p : Program} (formed : Stmt.WritableAll p.body) (written : p.Written ms)
    {fuel : Nat} (room : 8 * ms.length ≤ fuel) (faces : c.Faces ms) :
    Yields c (program fuel) fun q _ => q.bare = p.bare := by
  obtain ⟨inner, written, rfl⟩ := written
  simp only [List.length_cons] at room
  unfold program
  refine .place ((expect_yields faces).bind fun _ d faces => ?_)
  refine (ident_yields faces).bind_and fun name e sameName faces => ?_
  have faces : e.Faces (inner ++ []) := by rwa [List.append_nil]
  refine (body_read p.body formed written (by omega) faces (.inr ⟨rfl, rfl⟩)).bind_and
    fun body g sameBody _ => ?_
  refine ⟨_, g, rfl, ?_⟩
  simp only [Program.bare, sameName, sameBody]

end Parse

namespace Cursor

theorem ofTokens_faces (tokens : List Token) : (ofTokens tokens).Faces (Token.writing tokens) :=
  ⟨ofTokens_closed tokens, by rw [ofTokens_takeWhile, Token.writing]⟩

/-- Reading is complete. A program that keeps to the grammar can be written, with semicolons left out
or not; each way to write it is a list of tokens; and wherever the tokens before the end of the text
write it so, that program is read, but for the places of its nodes. -/
theorem program_complete {p : Program} (formed : Stmt.WritableAll p.body) :
    (∃ ms, p.Written ms) ∧
      ∀ ms, p.Written ms →
        (∃ tokens, Token.writing tokens = ms) ∧
          ∀ tokens, Token.writing tokens = ms →
            ∃ q d, (ofTokens tokens).program = .ok q d ∧ q.bare = p.bare := by
  refine ⟨p.exists_written, fun ms written => ⟨?_, ?_⟩⟩
  · exact Token.exists_writing (p.written_arises formed written)
  · rintro tokens rfl
    have faces := ofTokens_faces tokens
    have room := faces.length_le
    exact Parse.program_yields formed written (by rw [fuel]; omega) faces

/-- A loop and a procedure that stops early. -/
def stopping : Program where
  name := ⟨0, "stopping", .nowhere⟩
  body := [
    .method .blank ⟨0, "halt", .nowhere⟩ [⟨⟨0, "n", .nowhere⟩, none⟩] none .blank [
      .ret .blank none,
      .assign .blank [.var ⟨0, "x", .nowhere⟩] [.float .blank (Number.narrow 2.5)],
      .ret .blank none],
    .iterative .blank [
      .mk .blank (.binary .blank .lt (.var .blank ⟨0, "x", .nowhere⟩)
          (.binary .blank .mul (.int .blank 2) (.var .blank ⟨0, "y", .nowhere⟩)))
        (.call .blank ⟨0, "halt", .nowhere⟩ [.int .blank 7])],
    .print .blank (.unary .blank .neg (.var .blank ⟨0, "x", .nowhere⟩))]
  span := .nowhere

/-- Its tokens with no semicolon more than is needed. -/
def stoppingTokens : List Token :=
  [.program, .ident "stopping",
    .proc, .ident "halt", .lparen, .ident "n", .rparen, .lbrace,
      .return, .semicolon, .ident "x", .assign, .floatLit 2.5, .return, .rbrace,
    .do, .ident "x", .lt, .intLit 2, .star, .ident "y", .guard,
      .ident "halt", .lparen, .intLit 7, .rparen, .semicolon, .od,
    .print, .minus, .ident "x", .eof].map fun kind => ⟨kind, .nowhere⟩

theorem program_complete_stopping :
    Stmt.WritableAll stopping.body ∧ stopping.Written (Token.writing stoppingTokens) ∧
      ∃ q d, (ofTokens stoppingTokens).program = .ok q d ∧ q.bare = stopping.bare := by
  have finite : (Number.narrow 2.5).isFinite = true := by decide +kernel
  have formed : Stmt.WritableAll stopping.body := by
    simp [stopping, Stmt.WritableAll, Stmt.Writable, Guard.WritableAll, Expr.Writable,
      Expr.WritableAll, Target.Writable, Expr.Grouped, Expr.operator?, BinOp.precedence, finite]
  have written : stopping.Written (Token.writing stoppingTokens) := by
    -- the procedure with its three statements, the loop with its guard, and the print
    exact ⟨_, ⟨_, _,
      ⟨_, ⟨_, _, rfl, ⟨_, _, rfl, ⟨_, _, rfl, rfl, .inr ⟨rfl, rfl⟩⟩, .inr ⟨rfl, rfl⟩⟩, .inl rfl⟩, rfl⟩,
      ⟨_, _, ⟨_, ⟨_, _, rfl, rfl, rfl⟩, rfl⟩,
        ⟨_, _, rfl, rfl, .inr ⟨rfl, rfl⟩⟩, .inr ⟨rfl, rfl⟩⟩, .inr ⟨rfl, rfl⟩⟩, rfl⟩
  exact ⟨formed, written, ((program_complete formed).2 _ written).2 _ rfl⟩

end Cursor

end Guarded

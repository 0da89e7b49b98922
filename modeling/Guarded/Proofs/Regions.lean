import Guarded.Proofs.Positions
import Guarded.Proofs.Spelling

/-!
The regions of a program. A tree is laid out as the tokens and smaller nodes that each of its nodes
is made of, in the order of the text; a semicolon may follow a statement in a list and the statement
of a guard. A layout covers a list of tokens if the tokens are those it asks for, and the region of
every node reaches from the start of its first token to the end of its last, on the line of the
first.

A program that is read covers the tokens it was read from. So its regions are nested like its nodes,
and any line in it is true if the lines of the tokens are.
-/

namespace Guarded

/-- What a tree says about the text it was read from. -/
inductive Region where
  | token (mark : Token.Mark)
  /-- A semicolon that may be left out. -/
  | semicolon
  | node (span : Span) (parts : List Region)

namespace Region

def kind (k : Token.Kind) : Region :=
  .token (.kind k)

/-- Items with commas between them. -/
def commas : List (List Region) → List Region
  | [] => []
  | [x] => x
  | x :: y :: xs => x ++ kind .comma :: commas (y :: xs)

theorem commas_cons (x : List Region) {xs : List (List Region)} (some : xs ≠ []) :
    commas (x :: xs) = x ++ kind .comma :: commas xs := by
  obtain ⟨y, ys, rfl⟩ := List.exists_cons_of_ne_nil some
  rfl

end Region

open Region (kind commas)

def Ident.region (name : Ident) : Region :=
  .node name.span [.token name.mark]

def Ty.regions (ty : Ty) : List Region :=
  ty.spell.map .token

def Param.regions (p : Param) : List Region :=
  (p.ty.map Ty.regions).getD [] ++ [p.name.region]

/-- Names with commas between them. -/
def Ident.regions (names : List Ident) : List Region :=
  commas (names.map fun name => [name.region])

namespace Expr

mutual

def region : Expr → Region
  | .int n v => .node n.span [kind (.intLit v.toInt)]
  | .float n v => .node n.span [.token (.single v)]
  | .bool n b => .node n.span [kind (if b then .trueLit else .falseLit)]
  | .var n name => .node n.span [name.region]
  | .index n array i => .node n.span [array.region, kind .lbracket, i.region, kind .rbracket]
  | .call n callee args =>
    .node n.span (callee.region :: kind .lparen :: (commas (regions args) ++ [kind .rparen]))
  | .paren n inner => .node n.span [kind .lparen, inner.region, kind .rparen]
  | .unary n op operand => .node n.span [kind op.token, operand.region]
  | .binary n op lhs rhs => .node n.span [lhs.region, kind op.token, rhs.region]

def regions : List Expr → List (List Region)
  | [] => []
  | e :: es => [e.region] :: regions es

end

theorem region_eq_node (e : Expr) : ∃ parts, e.region = .node e.span parts := by
  cases e <;> exact ⟨_, rfl⟩

end Expr

def Target.regions : Target → List Region
  | .var name => [name.region]
  | .index array i => [array.region, kind .lbracket, i.region, kind .rbracket]

/-- The heading of a method, up to its block. -/
def headRegions (name : Ident) (params : List Param) (result : Option Ty) : List Region :=
  kind (if result.isSome then .fun else .proc) :: name.region :: kind .lparen ::
    (commas (params.map Param.regions) ++ kind .rparen ::
      (result.map fun ty => kind .colon :: ty.regions).getD [])

mutual

def Stmt.region : Stmt → Region
  | .varDecl n ty names => .node n.span (ty.regions ++ Ident.regions names)
  | .arrayDecl n ty size names =>
    .node n.span (ty.regions ++ kind .lbracket :: size.region :: kind .rbracket ::
      Ident.regions names)
  | .method n name params result inner body =>
    .node n.span (headRegions name params result ++
      [.node inner.span (kind .lbrace :: (Stmt.regions body ++ [kind .rbrace]))])
  | .assign n targets values =>
    .node n.span (commas (targets.map Target.regions) ++ kind .assign ::
      commas (Expr.regions values))
  | .input n names => .node n.span (kind .input :: Ident.regions names)
  | .print n value => .node n.span [kind .print, value.region]
  | .alternative n guards => .node n.span (kind .if :: (Guard.regions guards ++ [kind .fi]))
  | .iterative n guards => .node n.span (kind .do :: (Guard.regions guards ++ [kind .od]))
  | .block n inner body =>
    .node n.span [.node inner.span (kind .lbrace :: (Stmt.regions body ++ [kind .rbrace]))]
  | .ret n none => .node n.span [kind .return]
  | .ret n (some value) => .node n.span [kind .return, value.region]
  | .call n callee args =>
    .node n.span (callee.region :: kind .lparen :: (commas (Expr.regions args) ++ [kind .rparen]))

/-- A semicolon may follow a statement, and is not part of it. -/
def Stmt.regions : List Stmt → List Region
  | [] => []
  | s :: ss => s.region :: .semicolon :: Stmt.regions ss

/-- A semicolon may end a guard, and is part of it. -/
def Guard.regions : List Guard → List Region
  | [] => []
  | .mk n cond body :: gs =>
    .node n.span [cond.region, kind .guard, body.region, .semicolon] :: Guard.regions gs

end

def Program.region (p : Program) : Region :=
  .node p.span (kind .program :: p.name.region :: Stmt.regions p.body)

/-- The region from the start of the first token to the end of the last, on the line of the first. -/
def Span.Over (s : Span) (ts : List Token) : Prop :=
  ∃ first last, ts.head? = some first ∧ ts.getLast? = some last ∧
    s = ⟨first.span.start, last.span.stop, first.span.line⟩

/-- The layout asks for just these tokens, and each of its nodes is over the tokens of its parts. -/
inductive Region.Cover : List Region → List Token → Prop
  | nil : Cover [] []
  | token {t : Token} {rs : List Region} {ts : List Token} (rest : Cover rs ts) :
    Cover (.token t.kind.mark :: rs) (t :: ts)
  | semicolon {t : Token} {rs : List Region} {ts : List Token} (own : t.kind = .semicolon)
    (rest : Cover rs ts) : Cover (.semicolon :: rs) (t :: ts)
  | leftOut {rs : List Region} {ts : List Token} (rest : Cover rs ts) : Cover (.semicolon :: rs) ts
  | node {s : Span} {parts rs : List Region} {xs ts : List Token} (inner : Cover parts xs)
    (spans : s.Over xs) (rest : Cover rs ts) : Cover (.node s parts :: rs) (xs ++ ts)

/-- A property of the regions of all nodes. -/
inductive Region.Every (P : Span → Prop) : List Region → Prop
  | nil : Every P []
  | token {m : Token.Mark} {rs : List Region} (rest : Every P rs) : Every P (.token m :: rs)
  | semicolon {rs : List Region} (rest : Every P rs) : Every P (.semicolon :: rs)
  | node {s : Span} {parts rs : List Region} (own : P s) (inner : Every P parts)
    (rest : Every P rs) : Every P (.node s parts :: rs)

/-- The one region holds the other. -/
def Span.Holds (outer inner : Span) : Prop :=
  outer.start ≤ inner.start ∧ inner.start ≤ inner.stop ∧ inner.stop ≤ outer.stop

/-- Every node lies in the node around it, and the outermost ones in a given region. -/
inductive Region.Nested : Span → List Region → Prop
  | nil {outer : Span} : Nested outer []
  | token {outer : Span} {m : Token.Mark} {rs : List Region} (rest : Nested outer rs) :
    Nested outer (.token m :: rs)
  | semicolon {outer : Span} {rs : List Region} (rest : Nested outer rs) :
    Nested outer (.semicolon :: rs)
  | node {outer s : Span} {parts rs : List Region} (own : outer.Holds s) (inner : Nested s parts)
    (rest : Nested outer rs) : Nested outer (.node s parts :: rs)

namespace Region
variable {P : Span → Prop} {rs qs : List Region}

@[simp] theorem every_nil : Every P [] :=
  .nil

@[simp] theorem every_kind {k : Token.Kind} : Every P (kind k :: rs) ↔ Every P rs :=
  ⟨fun | .token rest => rest, .token⟩

@[simp] theorem every_token {m : Token.Mark} : Every P (.token m :: rs) ↔ Every P rs :=
  ⟨fun | .token rest => rest, .token⟩

@[simp] theorem every_semicolon : Every P (.semicolon :: rs) ↔ Every P rs :=
  ⟨fun | .semicolon rest => rest, .semicolon⟩

@[simp] theorem every_node {s : Span} {parts : List Region} :
    Every P (.node s parts :: rs) ↔ P s ∧ Every P parts ∧ Every P rs :=
  ⟨fun | .node own inner rest => ⟨own, inner, rest⟩, fun ⟨own, inner, rest⟩ => .node own inner rest⟩

theorem every_cons {r : Region} : Every P (r :: rs) ↔ Every P [r] ∧ Every P rs := by
  cases r <;> simp [and_assoc]

/-- A form of the last statement that does not repeat. -/
theorem every_cons_cons {r q : Region} :
    Every P (r :: q :: rs) ↔ Every P [r] ∧ Every P (q :: rs) :=
  every_cons

@[simp] theorem every_append : Every P (rs ++ qs) ↔ Every P rs ∧ Every P qs := by
  induction rs with
  | nil => simp
  | cons r rs ih => rw [List.cons_append, every_cons, ih, @every_cons P rs r, and_assoc]

@[simp] theorem every_commas {xss : List (List Region)} :
    Every P (commas xss) ↔ ∀ xs ∈ xss, Every P xs := by
  induction xss with
  | nil => simp [commas]
  | cons xs rest ih =>
    cases rest with
    | nil => simp [commas]
    | cons ys rest => simp [commas_cons, ih]

end Region

namespace Token.Ordered
variable {xs ys : List Token}

theorem left (h : Ordered (xs ++ ys)) : Ordered xs :=
  ⟨fun t mem => h.each t (List.mem_append_left _ mem), (List.pairwise_append.mp h.apart).1⟩

theorem right (h : Ordered (xs ++ ys)) : Ordered ys :=
  ⟨fun t mem => h.each t (List.mem_append_right _ mem), (List.pairwise_append.mp h.apart).2.1⟩

theorem tail {t : Token} (h : Ordered (t :: xs)) : Ordered xs :=
  (show Ordered ([t] ++ xs) from h).right

theorem between (h : Ordered (xs ++ ys)) {t u : Token} (left : t ∈ xs) (right : u ∈ ys) :
    t.span.stop ≤ u.span.start :=
  (List.pairwise_append.mp h.apart).2.2 t left u right

end Token.Ordered

namespace Span.Over
variable {s s' : Span} {t : Token} {xs zs : List Token}

theorem single (t : Token) : t.span.Over [t] :=
  ⟨t, t, rfl, rfl, rfl⟩

/-- A region over tokens in order holds each of them. -/
theorem holds (spans : s.Over xs) (ordered : Token.Ordered xs) (mem : t ∈ xs) :
    s.Holds t.span := by
  obtain ⟨first, last, head, tail, rfl⟩ := spans
  refine ⟨?_, ordered.each t mem, ?_⟩
  · obtain ⟨rest, rfl⟩ := List.head?_eq_some_iff.mp head
    rcases List.mem_cons.mp mem with rfl | later
    · exact le_rfl
    · exact (ordered.each first List.mem_cons_self).trans
        ((List.pairwise_cons.mp ordered.apart).1 t later)
  · obtain ⟨rest, rfl⟩ := List.getLast?_eq_some_iff.mp tail
    rcases List.mem_append.mp mem with earlier | own
    · have later := ordered.between earlier (List.mem_singleton_self last)
      exact later.trans (ordered.each last (by simp))
    · obtain rfl := List.mem_singleton.mp own
      exact le_rfl

/-- The region around two others is over their tokens and all that are between. -/
theorem merge (ys : List Token) (left : s.Over xs) (right : s'.Over zs)
    (ordered : Token.Ordered (xs ++ ys ++ zs)) :
    (s.merge s').Over (xs ++ ys ++ zs) := by
  obtain ⟨first, last', head, tail, rfl⟩ := left
  obtain ⟨first', last, head', tail', rfl⟩ := right
  have firstMem : first ∈ xs ++ ys := List.mem_append_left _ (List.mem_of_head? head)
  have lastMem' : last' ∈ xs ++ ys := List.mem_append_left _ (List.mem_of_getLast? tail)
  have lastMem := List.mem_of_getLast? tail'
  have starts : first.span.start ≤ first'.span.start :=
    (ordered.left.each first firstMem).trans (ordered.between firstMem (List.mem_of_head? head'))
  have stops : last'.span.stop ≤ last.span.stop :=
    (ordered.between lastMem' lastMem).trans (ordered.right.each last lastMem)
  refine ⟨first, last, ?_, ?_, ?_⟩
  · simp [head]
  · simp [tail']
  · simp only [Span.merge, starts, if_true, min_eq_left, max_eq_right stops]

/-- The region from the first token to the last. -/
theorem ends (ordered : Token.Ordered xs) {first last : Token} (head : xs.head? = some first)
    (tail : xs.getLast? = some last) : (first.span.merge last.span).Over xs := by
  obtain ⟨rest, rfl⟩ := List.head?_eq_some_iff.mp head
  rcases List.eq_nil_or_concat rest with rfl | ⟨mid, other, rfl⟩
  · obtain rfl : first = last := by simpa using tail
    simpa [Span.merge] using single first
  · rw [List.concat_eq_append] at ordered tail ⊢
    obtain rfl : other = last := by
      rw [← List.cons_append, List.getLast?_concat] at tail
      exact Option.some.inj tail
    exact merge mid (single first) (single other) ordered

theorem ne_nil (spans : s.Over xs) : xs ≠ [] := by
  rintro rfl
  obtain ⟨first, _, head, _⟩ := spans
  cases head

end Span.Over

namespace Region.Cover
variable {rs qs : List Region} {ts us : List Token} {s : Span}

theorem append (left : Cover rs ts) (right : Cover qs us) : Cover (rs ++ qs) (ts ++ us) := by
  induction left with
  | nil => exact right
  | token rest ih => exact .token ih
  | semicolon own rest ih => exact .semicolon own ih
  | leftOut rest ih => exact .leftOut ih
  | node inner spans rest _ ih =>
    rw [List.append_assoc]
    exact .node inner spans ih

theorem wrap (inner : Cover rs ts) (spans : s.Over ts) : Cover [.node s rs] ts := by
  simpa using Cover.node inner spans .nil

theorem spans (cover : Cover [.node s rs] ts) : s.Over ts := by
  cases cover with
  | node inner spans rest =>
    cases rest
    simpa using spans

/-- A layout that does not start with a semicolon asks for a token. -/
theorem ne_nil {r : Region} (cover : Cover (r :: rs) ts) (solid : r ≠ .semicolon) : ts ≠ [] := by
  cases cover with
  | token rest => exact List.cons_ne_nil _ _
  | semicolon own rest => exact absurd rfl solid
  | leftOut rest => exact absurd rfl solid
  | node inner spans rest => simp [spans.ne_nil]

/-- A token that shows in a tree as it is. -/
theorem shown {t : Token} {k : Token.Kind} (here : t.kind = k) (shown : k.isShown = true) :
    Cover [kind k] [t] := by
  have mark : t.kind.mark = .kind k := by
    subst here
    revert shown
    cases t.kind <;> first | exact fun _ => rfl | exact nofun
  rw [kind, ← mark]
  exact .token .nil

/-- A region starts where a token does, on its line. -/
theorem every {P : Span → Prop} (cover : Cover rs ts)
    (first : ∀ t ∈ ts, ∀ stop, P ⟨t.span.start, stop, t.span.line⟩) : Every P rs := by
  induction cover with
  | nil => exact .nil
  | token rest ih => exact .token (ih fun t mem => first t (List.mem_cons_of_mem _ mem))
  | semicolon own rest ih => exact .semicolon (ih fun t mem => first t (List.mem_cons_of_mem _ mem))
  | leftOut rest ih => exact .semicolon (ih first)
  | node inner spans rest ih ih' =>
    refine .node ?_ (ih fun t mem => first t (List.mem_append_left _ mem))
      (ih' fun t mem => first t (List.mem_append_right _ mem))
    obtain ⟨t, _, head, _, rfl⟩ := spans
    exact first t (List.mem_append_left _ (List.mem_of_head? head)) _

/-- Regions over tokens in order are nested. -/
theorem nested {outer : Span} (cover : Cover rs ts) (ordered : Token.Ordered ts)
    (inside : ∀ t ∈ ts, outer.Holds t.span) : Nested outer rs := by
  induction cover generalizing outer with
  | nil => exact .nil
  | token rest ih =>
    exact .token (ih (ordered.tail) fun t mem => inside t (List.mem_cons_of_mem _ mem))
  | semicolon own rest ih =>
    exact .semicolon
      (ih (ordered.tail) fun t mem => inside t (List.mem_cons_of_mem _ mem))
  | leftOut rest ih => exact .semicolon (ih ordered inside)
  | node inner spans rest ih ih' =>
    refine .node ?_ (ih ordered.left fun t mem => spans.holds ordered.left mem)
      (ih' ordered.right fun t mem => inside t (List.mem_append_right _ mem))
    obtain ⟨first, last, head, tail, rfl⟩ := id spans
    have left := inside first (List.mem_append_left _ (List.mem_of_head? head))
    have right := inside last (List.mem_append_left _ (List.mem_of_getLast? tail))
    have among := spans.holds ordered.left (List.mem_of_head? head)
    exact ⟨left.1, among.2.1.trans among.2.2, right.2.2⟩

end Region.Cover

/-- Tokens are taken from one cursor to another. -/
structure Cursor.Moves (c d : Cursor) (ts : List Token) : Prop where
  last : d.last = c.last
  ahead : c.ahead = ts ++ d.ahead
  prev : d.prev = (ts.getLast?.map Token.span).getD c.prev

/-- The tokens ahead are in order up to the end of the text. -/
structure Cursor.Sound (c : Cursor) : Prop where
  closed : c.last.kind = .eof
  ordered : Token.Ordered c.ahead

namespace Cursor
variable {c d e : Cursor} {xs ys : List Token}

/-- A step that takes nothing. -/
theorem Moves.none (last : d.last = c.last) (ahead : d.ahead = c.ahead) (prev : d.prev = c.prev) :
    c.Moves d [] :=
  ⟨last, ahead.symm, prev⟩

theorem Moves.trans (first : c.Moves d xs) (second : d.Moves e ys) : c.Moves e (xs ++ ys) where
  last := second.last.trans first.last
  ahead := by rw [first.ahead, second.ahead, List.append_assoc]
  prev := by
    rw [second.prev, first.prev, List.getLast?_append]
    cases ys.getLast? <;> rfl

theorem Sound.move (sound : c.Sound) (moves : c.Moves d xs) : d.Sound where
  closed := moves.last ▸ sound.closed
  ordered := (moves.ahead ▸ sound.ordered : Token.Ordered (xs ++ d.ahead)).right

theorem Sound.taken (sound : c.Sound) (moves : c.Moves d xs) : Token.Ordered xs :=
  (moves.ahead ▸ sound.ordered : Token.Ordered (xs ++ d.ahead)).left

/-- From the current token to the token taken last. -/
theorem Moves.spans (moves : c.Moves d xs) (sound : c.Sound) (some : xs ≠ []) :
    (c.current.span.merge d.prev).Over xs := by
  obtain ⟨first, rest, rfl⟩ := List.exists_cons_of_ne_nil some
  have current : c.current = first := by simp [Cursor.current, moves.ahead]
  obtain ⟨last, tail⟩ : ∃ last, (first :: rest).getLast? = Option.some last :=
    Option.isSome_iff_exists.mp (by simp)
  rw [current, moves.prev, tail]
  exact .ends (sound.taken moves) rfl tail

end Cursor

namespace Parse
open Region (Cover)

/-- A call that goes on from `c₀`, after the tokens `ts`. If it succeeds, it takes more of them, and
all that have been taken stand in the relation `post` to what it gives. -/
def Along {α : Type} (c₀ : Cursor) (ts : List Token) (c : Cursor) (x : Parse α)
    (post : α → List Token → Prop) : Prop :=
  c₀.Sound → c₀.Moves c ts → ∀ a d, x c = .ok a d → ∃ ts', c₀.Moves d ts' ∧ post a ts'

/-- A call that has taken no tokens yet. -/
def Lays {α : Type} (c : Cursor) (x : Parse α) (post : α → List Token → Prop) : Prop :=
  Along c [] c x post

namespace Along
variable {α β : Type} {c₀ c : Cursor} {ts : List Token} {x : Parse α} {f : α → Parse β}
variable {q : α → List Token → Prop} {post : β → List Token → Prop}

theorem given (h : c₀.Sound → Along c₀ ts c x q) : Along c₀ ts c x q :=
  fun sound moves => h sound sound moves

theorem pure {b : β} (h : post b ts) : Along c₀ ts c (Pure.pure b) post := by
  intro _ moves a d run
  obtain ⟨rfl, rfl⟩ := lasting_pure_ok.mp run
  exact ⟨ts, moves, h⟩

theorem bind (first : Along c₀ ts c x q)
    (second : ∀ a d ts', c₀.Moves d ts' → q a ts' → Along c₀ ts' d (f a) post) :
    Along c₀ ts c (x >>= f) post := by
  intro sound moves b d run
  obtain ⟨a, d', hx, hf⟩ := lasting_bind_ok.mp run
  obtain ⟨ts', moves', ha⟩ := first sound moves a d' hx
  exact second a d' ts' moves' ha sound moves' b d hf

theorem mono (h : Along c₀ ts c x q) {post : α → List Token → Prop}
    (imp : ∀ a ts', q a ts' → post a ts') : Along c₀ ts c x post := by
  intro sound moves a d run
  obtain ⟨ts', moves', ha⟩ := h sound moves a d run
  exact ⟨ts', moves', imp a ts' ha⟩

theorem throw {e : Error} : Along c₀ ts c (MonadExcept.throw e : Parse β) post :=
  fun _ _ _ _ run => absurd run lasting_throw_ok

/-- What a call takes by itself comes after what has been taken. -/
theorem call (h : Lays c x q) :
    Along c₀ ts c x fun a ts' => ∃ more, ts' = ts ++ more ∧ q a more := by
  intro sound moves a d run
  obtain ⟨more, moves', ha⟩ := h (sound.move moves) (.none rfl rfl rfl) a d run
  exact ⟨ts ++ more, moves.trans moves', more, rfl, ha⟩

theorem ite {p : Prop} [Decidable p] {y z : Parse β} (hy : p → Along c₀ ts c y post)
    (hz : ¬ p → Along c₀ ts c z post) : Along c₀ ts c (if p then y else z) post := by
  split
  · exact hy ‹_›
  · exact hz ‹_›

/-- Looking at the current token takes nothing. -/
theorem look {f : Token.Kind → Parse β} (h : Along c₀ ts c (f c.current.kind) post) :
    Along c₀ ts c (Parse.kind >>= f) post :=
  h

theorem place {f : Span → Parse β} (h : Along c₀ ts c (f c.current.span) post) :
    Along c₀ ts c (span >>= f) post :=
  h

theorem state {f : Cursor → Parse β} (h : Along c₀ ts c (f c) post) :
    Along c₀ ts c (get >>= f) post :=
  h

theorem discard (h : Along c₀ ts c x q) :
    Along c₀ ts c (Functor.discard x) fun _ ts' => ∃ a, q a ts' :=
  (h.bind fun a _ _ _ ha => pure ⟨a, ha⟩ : Along c₀ ts c (x >>= fun _ => Pure.pure ()) _)

end Along

section
variable {α : Type} {c₀ c : Cursor} {ts : List Token}

theorem unexpected_along {expected : String} {post : α → List Token → Prop} :
    Along c₀ ts c (unexpected expected) post := by
  unfold unexpected
  refine .state ?_
  dsimp only
  split <;> exact .throw

/-- Taking a token that is not the end of the text. -/
theorem advance_lays (notEnd : c.current.kind ≠ .eof) :
    Lays c advance fun t ts => t = c.current ∧ ts = [t] := by
  intro sound _ t d run
  cases ahead : c.ahead with
  | nil =>
    have current : c.current = c.last := by simp [Cursor.current, ahead]
    exact absurd (current ▸ sound.closed) notEnd
  | cons u rest =>
    obtain ⟨rfl, rfl⟩ : u = t ∧ { c with ahead := rest, prev := u.span } = d := by
      simpa only [ahead] using lasting_modifyGet_ok.mp run
    exact ⟨[u], ⟨rfl, ahead, rfl⟩, by simp [Cursor.current, ahead], rfl⟩

/-- Taking a token of a kind that has been seen. -/
theorem skip_lays {k : Token.Kind} (here : c.current.kind = k) (shown : k.isShown = true) :
    Lays c (discard advance) fun _ ts => Cover [.kind k] ts := by
  refine (Along.discard (advance_lays ?_)).mono ?_
  · exact here ▸ Token.Kind.ne_eof_of_isShown shown
  · rintro _ _ ⟨t, rfl, rfl⟩
    exact .shown here shown

theorem expect_lays {k : Token.Kind} (shown : k.isShown = true) :
    Lays c (expect k) fun _ ts => Cover [.kind k] ts := by
  unfold expect
  exact .look (.ite (fun here => skip_lays here shown) fun _ => unexpected_along)

theorem consume_lays {k : Token.Kind} (shown : k.isShown = true) :
    Lays c (consume k) fun found ts => Cover (if found then [.kind k] else []) ts := by
  unfold consume
  refine .look (.ite (fun here => ?_) fun _ => .pure .nil)
  exact .bind (skip_lays here shown) fun _ _ _ _ cover => .pure cover

theorem semicolon_lays : Lays c (discard (consume .semicolon)) fun _ ts =>
    Cover [.semicolon] ts := by
  have read : Lays c (consume .semicolon) fun _ ts => Cover [.semicolon] ts := by
    unfold consume
    refine .look (.ite (fun here => ?_) fun _ => .pure (.leftOut .nil))
    refine .bind (.discard (advance_lays (by simp [here]))) ?_
    rintro _ d _ - ⟨t, rfl, rfl⟩
    exact .pure (.semicolon here .nil)
  exact (Along.discard read).mono fun _ _ ⟨_, cover⟩ => cover

/-- A node around all that has been taken. -/
theorem node_along {parts : List Region} (cover : Cover parts ts) (some : ts ≠ []) :
    Along c₀ ts c (node c₀.current.span) fun n ts' =>
      ts' = ts ∧ Cover [.node n.span parts] ts := by
  intro sound moves n d run
  obtain ⟨rfl, rfl⟩ : _ = n ∧ { c with nextId := c.nextId + 1 } = d := by
    simpa [node] using lasting_pure_ok.mp run
  exact ⟨ts, ⟨moves.last, moves.ahead, moves.prev⟩, rfl, cover.wrap (moves.spans sound some)⟩

theorem wrap_along {build : Node → α} {parts : List Region} {post : α → List Token → Prop}
    (cover : Cover parts ts) (some : ts ≠ [])
    (own : ∀ n : Node, Cover [.node n.span parts] ts → post (build n) ts) :
    Along c₀ ts c (do return build (← node c₀.current.span)) post := by
  refine .bind (node_along cover some) ?_
  rintro n d _ - ⟨rfl, cover⟩
  exact .pure (own n cover)

theorem join_along (a b : Span) :
    Along c₀ ts c (join a b) fun n ts' => ts' = ts ∧ n.span = a.merge b := by
  intro _ moves n d run
  obtain ⟨rfl, rfl⟩ : _ = n ∧ { c with nextId := c.nextId + 1 } = d := by
    simpa [join] using lasting_pure_ok.mp run
  exact ⟨ts, ⟨moves.last, moves.ahead, moves.prev⟩, rfl, rfl⟩

theorem freshId_along : Along c₀ ts c freshId fun _ ts' => ts' = ts := by
  intro _ moves i d run
  obtain ⟨-, rfl⟩ : c.nextId = i ∧ { c with nextId := c.nextId + 1 } = d :=
    lasting_modifyGet_ok.mp run
  exact ⟨ts, ⟨moves.last, moves.ahead, moves.prev⟩, rfl⟩

theorem ident_lays : Lays c ident fun name ts => Cover [name.region] ts := by
  unfold ident
  refine .look ?_
  split
  · rename_i name here
    refine .bind (advance_lays (by simp [here])) ?_
    rintro _ d _ - ⟨rfl, rfl⟩
    refine .bind freshId_along ?_
    rintro i e _ - rfl
    exact .pure (.wrap (.shown here rfl) (.single _))
  · exact unexpected_along
  · exact .place .throw

theorem type_lays : Lays c type fun ty ts => ts ≠ [] ∧ Cover ty.regions ts := by
  unfold type
  refine .look ?_
  extract_lets rest
  have after : ∀ (ty : Ty) (k : Token.Kind), c.current.kind = k → ty.regions = [.kind k] →
      k.isShown = true → Lays c (rest ty) fun ty ts => ts ≠ [] ∧ Cover ty.regions ts := by
    intro ty k here lays shown
    refine .bind (skip_lays here shown) fun _ d ts _ cover => ?_
    exact .pure ⟨cover.ne_nil nofun, lays ▸ cover⟩
  split
  · exact after .int .int ‹_› rfl rfl
  · exact after .float .float ‹_› rfl rfl
  · exact after .boolean .boolean ‹_› rfl rfl
  · exact .place (Along.bind (q := fun _ _ => False) .throw fun _ _ _ _ never => never.elim)

theorem idents_lays (fuel : Nat) : Lays c (idents fuel) fun names ts =>
    names ≠ [] ∧ Cover (Ident.regions names) ts := by
  induction fuel generalizing c with
  | zero => exact unexpected_along
  | succ fuel ih =>
    unfold idents
    refine .bind ident_lays fun name d ts _ own => ?_
    refine .bind (.call (consume_lays rfl)) ?_
    rintro more e _ - ⟨us, rfl, comma⟩
    refine .ite (fun isMore => ?_) fun isLast => ?_
    · refine .bind (.call ih) ?_
      rintro names g _ - ⟨vs, rfl, some, cover⟩
      refine .pure ⟨by simp, ?_⟩
      rw [Ident.regions, List.map_cons, Region.commas_cons _ (by simpa using some)]
      simpa [isMore, Ident.regions] using (own.append comma).append cover
    · refine .pure ⟨by simp, ?_⟩
      simpa [isLast, Ident.regions, commas] using own.append comma

theorem params_lays (fuel : Nat) : Lays c (params fuel) fun ps ts =>
    ps ≠ [] ∧ Cover (commas (ps.map Param.regions)) ts := by
  induction fuel generalizing c with
  | zero => exact unexpected_along
  | succ fuel ih =>
    unfold params
    refine .look ?_
    extract_lets rest
    have after : ∀ (ty : Option Ty) (d : Cursor) (ts : List Token),
        Cover ((ty.map Ty.regions).getD []) ts → Along c ts d (rest ty) fun ps ts =>
          ps ≠ [] ∧ Cover (commas (ps.map Param.regions)) ts := by
      intro ty d ts typed
      refine .bind (.call ident_lays) ?_
      rintro name e _ - ⟨us, rfl, own⟩
      have param : Cover (Param.regions ⟨name, ty⟩) (ts ++ us) := typed.append own
      refine .bind (.call (consume_lays rfl)) ?_
      rintro more g _ - ⟨vs, rfl, comma⟩
      refine .ite (fun isMore => ?_) fun isLast => ?_
      · refine .bind (.call ih) ?_
        rintro ps h _ - ⟨ws, rfl, some, cover⟩
        refine .pure ⟨by simp, ?_⟩
        rw [List.map_cons, Region.commas_cons _ (by simpa using some)]
        simpa [isMore] using (param.append comma).append cover
      · refine .pure ⟨by simp, ?_⟩
        simpa [isLast, commas] using param.append comma
    refine .ite (fun _ => ?_) fun _ => after none c [] .nil
    rw [bind_map_left]
    refine .bind type_lays ?_
    rintro ty d ts - ⟨-, cover⟩
    exact after (some ty) d ts cover

theorem intValue_along (value : Int) (s : Span) :
    Along c₀ ts c (intValue value s) fun v ts' => ts' = ts ∧ v.toInt = value := by
  unfold intValue
  refine .ite (fun fits => .pure ⟨rfl, ?_⟩) fun _ => .throw
  simp only [Bool.and_eq_true, decide_eq_true_eq] at fits
  exact Int32.toInt_ofInt_of_le fits.1 fits.2

theorem floatValue_along (value : Float) (s : Span) :
    Along c₀ ts c (floatValue value s) fun v ts' => ts' = ts ∧ v = Number.narrow value := by
  unfold floatValue
  exact .ite (fun _ => .pure ⟨rfl, rfl⟩) fun _ => .throw

end

/-- What the expression functions lay out, all with the same fuel. The loop over operators goes on
from a left operand that covers the tokens just before. -/
structure ExprLays (fuel : Nat) : Prop where
  binary (c : Cursor) (min : Nat) : Lays c (binary fuel min) fun e ts => Cover [e.region] ts
  climb (c : Cursor) (min : Nat) (lhs : Expr) (left : List Token) : Cover [lhs.region] left →
    Token.Ordered (left ++ c.ahead) →
    Lays c (climb fuel min lhs) fun e ts => Cover [e.region] (left ++ ts)
  unary (c : Cursor) : Lays c (unary fuel) fun e ts => Cover [e.region] ts
  signed (c : Cursor) (op : UnOp) : c.current.kind = op.token →
    Lays c (signed fuel op) fun e ts => Cover [e.region] ts
  primary (c : Cursor) : Lays c (primary fuel) fun e ts => Cover [e.region] ts
  args (c : Cursor) : Lays c (args fuel) fun es ts =>
    Cover (.kind .lparen :: (commas (Expr.regions es) ++ [.kind .rparen])) ts
  exprs (c : Cursor) : Lays c (exprs fuel) fun es ts =>
    es ≠ [] ∧ Cover (commas (Expr.regions es)) ts

theorem expr_over {e : Expr} {ts : List Token} (cover : Cover [e.region] ts) : e.span.Over ts := by
  obtain ⟨parts, same⟩ := e.region_eq_node
  rw [same] at cover
  exact cover.spans

namespace ExprLays
variable {fuel : Nat} (ih : ExprLays fuel)
include ih

theorem binary_succ (c : Cursor) (min : Nat) :
    Lays c (Parse.binary (fuel + 1) min) fun e ts => Cover [e.region] ts := by
  refine .given fun sound => ?_
  unfold Parse.binary
  refine .bind (ih.unary c) fun lhs d ts moves cover => ?_
  refine (Along.call (ih.climb d min lhs ts cover (moves.ahead ▸ sound.ordered))).mono ?_
  rintro e _ ⟨more, rfl, cover⟩
  exact cover

theorem climb_succ (c : Cursor) (min : Nat) (lhs : Expr) (left : List Token)
    (cover : Cover [lhs.region] left) (ordered : Token.Ordered (left ++ c.ahead)) :
    Lays c (Parse.climb (fuel + 1) min lhs) fun e ts => Cover [e.region] (left ++ ts) := by
  have stop : Cover [lhs.region] (left ++ []) := by simpa using cover
  unfold Parse.climb
  refine .look ?_
  split
  · exact .pure stop
  · rename_i op found
    refine .ite (fun _ => .pure stop) fun _ => ?_
    refine .bind (skip_lays (BinOp.eq_token_of_ofToken? found) op.token_isShown) ?_
    intro _ d ts _ token
    refine .bind (.call (ih.binary d op.precedence)) ?_
    rintro rhs e _ - ⟨us, rfl, right⟩
    refine .bind (join_along _ _) ?_
    rintro n g _ moves ⟨rfl, own⟩
    rw [moves.ahead, ← List.append_assoc, ← List.append_assoc] at ordered
    have spans : n.span.Over (left ++ ts ++ us) :=
      own ▸ .merge ts (expr_over cover) (expr_over right) ordered.left
    have whole : Cover [(Expr.binary n op lhs rhs).region] (left ++ ts ++ us) :=
      .wrap ((cover.append token).append right) spans
    refine (Along.call (ih.climb g min _ _ whole ordered)).mono ?_
    rintro e' _ ⟨more, rfl, cover'⟩
    simpa using cover'

theorem unary_succ (c : Cursor) :
    Lays c (Parse.unary (fuel + 1)) fun e ts => Cover [e.region] ts := by
  unfold Parse.unary
  refine .look ?_
  split
  · exact ih.signed c .neg ‹_›
  · exact ih.signed c .not ‹_›
  · exact ih.primary c

theorem signed_succ (c : Cursor) (op : UnOp) (here : c.current.kind = op.token) :
    Lays c (Parse.signed (fuel + 1) op) fun e ts => Cover [e.region] ts := by
  have shown : op.token.isShown = true := by cases op <;> rfl
  refine .given fun sound => ?_
  unfold Parse.signed
  refine .bind (advance_lays (here ▸ Token.Kind.ne_eof_of_isShown shown)) ?_
  rintro _ d _ - ⟨rfl, rfl⟩
  refine .bind (.call (ih.unary d)) ?_
  rintro operand e _ - ⟨us, rfl, cover⟩
  refine .bind (join_along _ _) ?_
  rintro n g _ moves ⟨rfl, own⟩
  have spans : n.span.Over ([c.current] ++ us) :=
    own ▸ .merge [] (.single _) (expr_over cover) (sound.taken moves)
  exact .pure (.wrap ((Cover.shown here shown).append cover) spans)

theorem primary_succ (c : Cursor) :
    Lays c (Parse.primary (fuel + 1)) fun e ts => Cover [e.region] ts := by
  unfold Parse.primary
  refine .place (.look ?_)
  split
  · refine .bind (skip_lays ‹_› rfl) fun _ d ts _ cover => ?_
    refine .bind (intValue_along _ _) ?_
    rintro v e _ - ⟨rfl, rfl⟩
    exact wrap_along cover (cover.ne_nil nofun) fun n whole => whole
  · rename_i value kind
    refine .bind (.discard (advance_lays (by simp [kind]))) ?_
    rintro _ d _ - ⟨t, rfl, rfl⟩
    refine .bind (floatValue_along _ _) ?_
    rintro v e _ - ⟨rfl, rfl⟩
    have cover : Cover [.token (.single (Number.narrow value))] [c.current] := by
      have mark : c.current.kind.mark = .single (Number.narrow value) := by
        rw [kind]
        rfl
      rw [← mark]
      exact .token .nil
    exact wrap_along cover (List.cons_ne_nil _ _) fun n whole => whole
  · refine .bind (skip_lays ‹_› rfl) fun _ d ts _ cover => ?_
    exact wrap_along cover (cover.ne_nil nofun) fun n whole => whole
  · refine .bind (skip_lays ‹_› rfl) fun _ d ts _ cover => ?_
    exact wrap_along cover (cover.ne_nil nofun) fun n whole => whole
  · refine .bind ident_lays fun name d ts _ named => ?_
    refine .look (.ite (fun _ => ?_) fun _ => ?_)
    · refine .bind (.call (ih.args d)) ?_
      rintro args e _ - ⟨us, rfl, cover⟩
      have whole := named.append cover
      exact wrap_along whole (whole.ne_nil nofun) fun n whole => whole
    · refine .bind (.call (consume_lays rfl)) ?_
      rintro bracket e _ - ⟨us, rfl, opened⟩
      refine .ite (fun isIndex => ?_) fun isVar => ?_
      · rw [if_pos isIndex] at opened
        refine .bind (.call (ih.binary e 0)) ?_
        rintro index g _ - ⟨vs, rfl, cover⟩
        refine .bind (.call (expect_lays rfl)) ?_
        rintro _ h _ - ⟨ws, rfl, closed⟩
        have whole := ((named.append opened).append cover).append closed
        exact wrap_along whole (whole.ne_nil nofun) fun n whole => whole
      · rw [if_neg isVar] at opened
        have whole := named.append opened
        exact wrap_along whole (whole.ne_nil nofun) fun n whole => whole
  · refine .bind (skip_lays ‹_› rfl) fun _ d ts _ opened => ?_
    refine .bind (.call (ih.binary d 0)) ?_
    rintro inner e _ - ⟨us, rfl, cover⟩
    refine .bind (.call (expect_lays rfl)) ?_
    rintro _ g _ - ⟨vs, rfl, closed⟩
    have whole := (opened.append cover).append closed
    exact wrap_along whole (whole.ne_nil nofun) fun n whole => whole
  · exact unexpected_along
  · exact .throw

theorem args_succ (c : Cursor) : Lays c (Parse.args (fuel + 1)) fun es ts =>
    Cover (.kind .lparen :: (commas (Expr.regions es) ++ [.kind .rparen])) ts := by
  unfold Parse.args
  refine .bind (expect_lays rfl) fun _ d ts _ opened => ?_
  refine .look ?_
  extract_lets rest
  have after : ∀ (es : List Expr) (e : Cursor) (us : List Token),
      Cover (commas (Expr.regions es)) us → Along c (ts ++ us) e (rest es) fun es ts =>
        Cover (.kind .lparen :: (commas (Expr.regions es) ++ [.kind .rparen])) ts := by
    intro es e us cover
    refine .bind (.call (expect_lays rfl)) ?_
    rintro _ g _ - ⟨vs, rfl, closed⟩
    refine .pure ?_
    simpa using (opened.append cover).append closed
  refine .ite (fun _ => ?_) fun _ => .bind (.call (ih.exprs d)) ?_
  · simpa using after [] d [] .nil
  · rintro es e _ - ⟨us, rfl, -, cover⟩
    exact after es e us cover

theorem exprs_succ (c : Cursor) : Lays c (Parse.exprs (fuel + 1)) fun es ts =>
    es ≠ [] ∧ Cover (commas (Expr.regions es)) ts := by
  unfold Parse.exprs
  refine .bind (ih.binary c 0) fun e d ts _ own => ?_
  refine .bind (.call (consume_lays rfl)) ?_
  rintro more g _ - ⟨us, rfl, comma⟩
  refine .ite (fun isMore => .bind (.call (ih.exprs g)) ?_) fun isLast => ?_
  · rintro es h _ - ⟨vs, rfl, some, cover⟩
    refine .pure ⟨by simp, ?_⟩
    obtain ⟨e', es, rfl⟩ := List.exists_cons_of_ne_nil some
    rw [Expr.regions, Region.commas_cons _ (by simp [Expr.regions])]
    simpa [isMore] using (own.append comma).append cover
  · refine .pure ⟨by simp, ?_⟩
    simpa [isLast, Expr.regions, commas] using own.append comma

end ExprLays

theorem expr_lays (fuel : Nat) : ExprLays fuel := by
  induction fuel with
  | zero =>
    exact ⟨fun _ _ => unexpected_along, fun _ _ _ _ _ _ => unexpected_along,
      fun _ => unexpected_along, fun _ _ _ => unexpected_along, fun _ => unexpected_along,
      fun _ => unexpected_along, fun _ => unexpected_along⟩
  | succ fuel ih =>
    exact ⟨ih.binary_succ, ih.climb_succ, ih.unary_succ, ih.signed_succ, ih.primary_succ,
      ih.args_succ, ih.exprs_succ⟩

section
variable {c : Cursor}

theorem target_lays (fuel : Nat) : Lays c (target fuel) fun t ts => Cover t.regions ts := by
  unfold target
  refine .bind ident_lays fun name d ts _ named => ?_
  refine .bind (.call (consume_lays rfl)) ?_
  rintro bracket e _ - ⟨us, rfl, opened⟩
  refine .ite (fun isIndex => ?_) fun isVar => ?_
  · rw [if_pos isIndex] at opened
    refine .bind (.call ((expr_lays fuel).binary e 0)) ?_
    rintro index g _ - ⟨vs, rfl, cover⟩
    refine .bind (.call (expect_lays rfl)) ?_
    rintro _ h _ - ⟨ws, rfl, closed⟩
    exact .pure (((named.append opened).append cover).append closed)
  · rw [if_neg isVar] at opened
    exact .pure (named.append opened)

theorem targets_lays (fuel : Nat) : Lays c (targets fuel) fun targets ts =>
    targets ≠ [] ∧ Cover (commas (targets.map Target.regions)) ts := by
  induction fuel generalizing c with
  | zero => exact unexpected_along
  | succ fuel ih =>
    unfold targets
    refine .bind (target_lays fuel) fun t d ts _ own => ?_
    refine .bind (.call (consume_lays rfl)) ?_
    rintro more e _ - ⟨us, rfl, comma⟩
    refine .ite (fun isMore => ?_) fun isLast => ?_
    · refine .bind (.call ih) ?_
      rintro targets g _ - ⟨vs, rfl, some, cover⟩
      refine .pure ⟨by simp, ?_⟩
      rw [List.map_cons, Region.commas_cons _ (by simpa using some)]
      simpa [isMore] using (own.append comma).append cover
    · refine .pure ⟨by simp, ?_⟩
      simpa [isLast, commas] using own.append comma

/-- A statement has been laid out, but for its node. -/
def Forms (build : Node → Stmt) (ts : List Token) : Prop :=
  ts ≠ [] ∧ ∃ parts, Cover parts ts ∧ ∀ n, (build n).region = .node n.span parts

/-- A layout that starts with a token or a node. -/
theorem Forms.of_cover {build : Node → Stmt} {ts : List Token} {r : Region} {parts : List Region}
    (cover : Cover (r :: parts) ts) (solid : r ≠ .semicolon)
    (same : ∀ n, (build n).region = .node n.span (r :: parts)) : Forms build ts :=
  ⟨cover.ne_nil solid, r :: parts, cover, same⟩

theorem declaration_lays (fuel : Nat) : Lays c (declaration fuel) Forms := by
  unfold declaration
  refine .bind type_lays ?_
  rintro ty d ts - ⟨some, typed⟩
  refine .bind (.call (consume_lays rfl)) ?_
  rintro bracket e _ - ⟨us, rfl, opened⟩
  refine .ite (fun isArray => ?_) fun isVar => ?_
  · rw [if_pos isArray] at opened
    refine .bind (.call ((expr_lays fuel).binary e 0)) ?_
    rintro size g _ - ⟨vs, rfl, cover⟩
    refine .bind (.call (expect_lays rfl)) ?_
    rintro _ h _ - ⟨ws, rfl, closed⟩
    refine .bind (.call (idents_lays fuel)) ?_
    rintro names i _ - ⟨xs, rfl, -, named⟩
    have whole := (((typed.append opened).append cover).append closed).append named
    exact .pure ⟨by simp [some], _, whole, fun n => by simp [Stmt.region]⟩
  · rw [if_neg isVar] at opened
    refine .bind (.call (idents_lays fuel)) ?_
    rintro names g _ - ⟨vs, rfl, -, named⟩
    have whole := (typed.append opened).append named
    exact .pure ⟨by simp [some], _, whole, fun n => by simp [Stmt.region]⟩

theorem assignment_lays (fuel : Nat) : Lays c (assignment fuel) Forms := by
  unfold assignment
  refine .bind (targets_lays fuel) ?_
  rintro targets d ts - ⟨-, left⟩
  refine .bind (.call (expect_lays rfl)) ?_
  rintro _ e _ - ⟨us, rfl, arrow⟩
  have some : us ≠ [] := arrow.ne_nil nofun
  refine .bind (.call ((expr_lays fuel).exprs e)) ?_
  rintro values g _ - ⟨vs, rfl, -, right⟩
  have whole := (left.append arrow).append right
  exact .pure ⟨by simp [some], _, whole, fun n => by simp [Stmt.region]⟩

theorem signature_lays (fuel : Nat) (function : Bool)
    (here : c.current.kind = methodToken function) :
    Lays c (signature fuel function) fun head ts =>
      Cover (headRegions head.1 head.2.1 head.2.2) ts := by
  have shown : (methodToken function).isShown = true := by cases function <;> rfl
  unfold signature
  refine .bind (skip_lays here shown) fun _ d ts _ keyword => ?_
  refine .bind (.call ident_lays) ?_
  rintro name e _ - ⟨us, rfl, named⟩
  refine .bind (.call (expect_lays rfl)) ?_
  rintro _ g _ - ⟨vs, rfl, opened⟩
  refine .look ?_
  extract_lets rest
  have after : ∀ (ps : List Param) (h : Cursor) (ws : List Token),
      Cover (commas (ps.map Param.regions)) ws →
      Along c (ts ++ us ++ vs ++ ws) h (rest ps) fun head ts =>
        Cover (headRegions head.1 head.2.1 head.2.2) ts := by
    intro ps h ws cover
    have before := ((keyword.append named).append opened).append cover
    refine .bind (.call (expect_lays rfl)) ?_
    rintro _ i _ - ⟨xs, rfl, closed⟩
    refine .ite (fun isFunction => ?_) fun isProcedure => ?_
    · refine .bind (.call (expect_lays rfl)) ?_
      rintro _ j _ - ⟨ys, rfl, colon⟩
      refine .bind (.call type_lays) ?_
      rintro ty k _ - ⟨zs, rfl, -, typed⟩
      refine .pure ?_
      simpa [isFunction, methodToken, headRegions] using
        ((before.append closed).append colon).append typed
    · refine .pure ?_
      simpa [isProcedure, methodToken, headRegions] using before.append closed
  refine .ite (fun _ => ?_) fun _ => .bind (.call (params_lays fuel)) ?_
  · simpa using after [] g [] .nil
  · rintro ps h _ - ⟨ws, rfl, -, cover⟩
    exact after ps h ws cover

end

/-- What the statement functions lay out, all with the same fuel. -/
structure StmtLays (fuel : Nat) : Prop where
  stmt (c : Cursor) : Lays c (stmt fuel) fun s ts => Cover [s.region] ts
  form (c : Cursor) : Lays c (form fuel) Forms
  method (c : Cursor) (function : Bool) : c.current.kind = methodToken function →
    Lays c (method fuel function) Forms
  block (c : Cursor) : Lays c (block fuel) fun b ts =>
    Cover [.node b.1.span (.kind .lbrace :: (Stmt.regions b.2 ++ [.kind .rbrace]))] ts
  stmts (c : Cursor) (close : Token.Kind) : Lays c (stmts fuel close) fun ss ts =>
    Cover (Stmt.regions ss) ts
  guards (c : Cursor) (close : Token.Kind) : close.isShown = true →
    Lays c (guards fuel close) fun gs ts => Cover (Guard.regions gs ++ [.kind close]) ts

namespace StmtLays
variable {fuel : Nat} (ih : StmtLays fuel)
include ih

theorem stmt_succ (c : Cursor) :
    Lays c (Parse.stmt (fuel + 1)) fun s ts => Cover [s.region] ts := by
  unfold Parse.stmt
  refine .place (.bind (ih.form c) ?_)
  rintro build d ts - ⟨some, parts, cover, same⟩
  exact wrap_along cover some fun n whole => same n ▸ whole

theorem form_succ (c : Cursor) : Lays c (Parse.form (fuel + 1)) Forms := by
  unfold Parse.form
  refine .look ?_
  split
  · exact declaration_lays fuel
  · exact declaration_lays fuel
  · exact declaration_lays fuel
  · exact ih.method c false ‹_›
  · exact ih.method c true ‹_›
  · refine .state (.ite (fun _ => ?_) fun _ => assignment_lays fuel)
    refine .bind ident_lays fun callee d ts _ named => ?_
    refine .bind (.call ((expr_lays fuel).args d)) ?_
    rintro args e _ - ⟨us, rfl, cover⟩
    exact .pure (.of_cover (named.append cover) nofun fun n => rfl)
  · refine .bind (skip_lays ‹_› rfl) fun _ d ts _ keyword => ?_
    refine .bind (.call (idents_lays fuel)) ?_
    rintro names e _ - ⟨us, rfl, -, cover⟩
    exact .pure (.of_cover (keyword.append cover) nofun fun n => rfl)
  · refine .bind (skip_lays ‹_› rfl) fun _ d ts _ keyword => ?_
    refine .bind (.call ((expr_lays fuel).binary d 0)) ?_
    rintro value e _ - ⟨us, rfl, cover⟩
    exact .pure (.of_cover (keyword.append cover) nofun fun n => rfl)
  · refine .bind (skip_lays ‹_› rfl) fun _ d ts _ keyword => ?_
    refine .bind (.call (ih.guards d .fi rfl)) ?_
    rintro guards e _ - ⟨us, rfl, cover⟩
    exact .pure (.of_cover (keyword.append cover) nofun fun n => rfl)
  · refine .bind (skip_lays ‹_› rfl) fun _ d ts _ keyword => ?_
    refine .bind (.call (ih.guards d .od rfl)) ?_
    rintro guards e _ - ⟨us, rfl, cover⟩
    exact .pure (.of_cover (keyword.append cover) nofun fun n => rfl)
  · refine .bind (ih.block c) ?_
    rintro ⟨inner, body⟩ d ts - cover
    exact .pure (.of_cover cover nofun fun n => rfl)
  · refine .bind (skip_lays ‹_› rfl) fun _ d ts _ keyword => ?_
    refine .look (.ite (fun _ => ?_) fun _ => ?_)
    · refine .bind (.call ((expr_lays fuel).binary d 0)) ?_
      rintro value e _ - ⟨us, rfl, cover⟩
      exact .pure (.of_cover (keyword.append cover) nofun fun n => rfl)
    · exact .pure (.of_cover keyword nofun fun n => rfl)
  · exact unexpected_along

theorem method_succ (c : Cursor) (function : Bool)
    (here : c.current.kind = methodToken function) :
    Lays c (Parse.method (fuel + 1) function) Forms := by
  unfold Parse.method
  refine .bind (signature_lays fuel function here) ?_
  rintro ⟨name, params, result⟩ d ts - head
  refine .bind (.call (ih.block d)) ?_
  rintro ⟨inner, body⟩ e _ - ⟨us, rfl, cover⟩
  exact .pure (.of_cover (head.append cover) (by simp [Region.kind]) fun n => rfl)

theorem block_succ (c : Cursor) : Lays c (Parse.block (fuel + 1)) fun b ts =>
    Cover [.node b.1.span (.kind .lbrace :: (Stmt.regions b.2 ++ [.kind .rbrace]))] ts := by
  unfold Parse.block
  refine .place (.bind (expect_lays rfl) fun _ d ts _ opened => ?_)
  refine .bind (.call (ih.stmts d .rbrace)) ?_
  rintro body e _ - ⟨us, rfl, cover⟩
  refine .bind (.call (expect_lays rfl)) ?_
  rintro _ g _ - ⟨vs, rfl, closed⟩
  have whole := (opened.append cover).append closed
  exact wrap_along whole (whole.ne_nil (by simp [Region.kind])) fun n whole => whole

theorem stmts_succ (c : Cursor) (close : Token.Kind) :
    Lays c (Parse.stmts (fuel + 1) close) fun ss ts => Cover (Stmt.regions ss) ts := by
  unfold Parse.stmts
  refine .look (.ite (fun _ => .pure .nil) fun _ => ?_)
  refine .bind (ih.stmt c) fun s d ts _ own => ?_
  refine .bind (.call semicolon_lays) ?_
  rintro _ e _ - ⟨us, rfl, semicolon⟩
  refine .bind (.call (ih.stmts e close)) ?_
  rintro ss g _ - ⟨vs, rfl, cover⟩
  exact .pure ((own.append semicolon).append cover)

theorem guards_succ (c : Cursor) (close : Token.Kind) (shown : close.isShown = true) :
    Lays c (Parse.guards (fuel + 1) close) fun gs ts =>
      Cover (Guard.regions gs ++ [.kind close]) ts := by
  unfold Parse.guards
  refine .place (.bind ((expr_lays fuel).binary c 0) fun cond d ts _ test => ?_)
  refine .bind (.call (expect_lays rfl)) ?_
  rintro _ e _ - ⟨us, rfl, arrow⟩
  refine .bind (.call (ih.stmt e)) ?_
  rintro body g _ - ⟨vs, rfl, allowed⟩
  refine .bind (.call semicolon_lays) ?_
  rintro _ h _ - ⟨ws, rfl, semicolon⟩
  have parts := ((test.append arrow).append allowed).append semicolon
  have some : ts ≠ [] := (expr_over test).ne_nil
  refine .bind (node_along parts (by simp [some])) ?_
  rintro n i _ - ⟨rfl, own⟩
  refine .bind (.call (consume_lays shown)) ?_
  rintro found j _ - ⟨xs, rfl, closed⟩
  refine .ite (fun isClosed => ?_) fun isOpen =>
    .look (.ite (fun _ => unexpected_along) fun _ => ?_)
  · rw [if_pos isClosed] at closed
    exact .pure (own.append closed)
  · rw [if_neg isOpen] at closed
    refine .bind (.call (ih.guards j close shown)) ?_
    rintro gs k _ - ⟨ys, rfl, cover⟩
    exact .pure ((own.append closed).append cover)

end StmtLays

theorem stmt_lays (fuel : Nat) : StmtLays fuel := by
  induction fuel with
  | zero =>
    exact ⟨fun _ => unexpected_along, fun _ => unexpected_along, fun _ _ _ => unexpected_along,
      fun _ => unexpected_along, fun _ _ => unexpected_along, fun _ _ _ => unexpected_along⟩
  | succ fuel ih =>
    exact ⟨ih.stmt_succ, ih.form_succ, ih.method_succ, ih.block_succ, ih.stmts_succ,
      ih.guards_succ⟩

theorem program_lays {c : Cursor} (fuel : Nat) :
    Lays c (program fuel) fun p ts => Cover [p.region] ts := by
  refine .given fun sound => ?_
  unfold program
  refine .place (.bind (expect_lays rfl) fun _ d ts _ keyword => ?_)
  refine .bind (.call ident_lays) ?_
  rintro name e _ - ⟨us, rfl, named⟩
  refine .bind (.call ((stmt_lays fuel).stmts e .eof)) ?_
  rintro body g _ moves ⟨vs, rfl, cover⟩
  have whole := (keyword.append named).append cover
  exact .pure (whole.wrap (moves.spans sound (whole.ne_nil nofun)))

end Parse

end Guarded

import Guarded.Proofs.Assembly
import Guarded.Proofs.Fixups

/-!
From labels to distances. Code is emitted with branches to labels, which are placed sooner or later
and are resolved when the routine is finished. Symbolic code has no labels: its jumps say how far
they go. Emitting a piece of a program and turning its symbolic code into object code go in step:
they fail alike, or they write the same number of instructions and agree on everything else. In the
end the labels of each branch are where the symbolic jump goes.

A label that is still to be placed is pending: it is known where it will be. What is emitted for an
expression or a statement leaves no label pending. That of a guard has the target of its choice or
loop pending.

The main statement is that the unit of a program is its symbolic code turned into object code. So a
routine never has a label without a place, and no guard is without a target.
-/

namespace Guarded

/-- What an entry becomes where labels have these places. -/
inductive Draft.Entry.Links (placed : Label → Nat → Prop) : Draft.Entry → Instr → Prop where
  | plain (i : Instr) : Links placed (.plain i) i
  | branch {j : Jump} {l : Label} {n : Nat} (known : placed l n) :
    Links placed (.branch j l) (j.instr n)

theorem Draft.Entry.Links.mono {P Q : Label → Nat → Prop} (h : ∀ l n, P l n → Q l n) {x : Draft.Entry}
    {i : Instr} (links : x.Links P i) : x.Links Q i := by
  cases links with
  | plain i => exact .plain i
  | branch known => exact .branch (h _ _ known)

/-- Code whose branches all go to labels that are placed can be finished. -/
theorem Draft.mapM_resolve {d : Draft} {xs : List Draft.Entry} {is : List Instr}
    (links : List.Forall₂ (Draft.Entry.Links fun l n => d.labels[l]? = some (some n)) xs is) :
    xs.mapM d.resolve = .ok is := by
  induction links with
  | nil => rfl
  | @cons x i xs is first rest ih =>
    have own : d.resolve x = .ok i := by
      cases first with
      | plain i => rfl
      | branch known => simp [resolve, known]
    rw [List.mapM_cons, own, ih]
    rfl

/-- A state with other code and without labels. -/
def Assembly.recode (s : Assembly) (code : List Instr) : Assembly :=
  { s with
    draft := { s.draft with code := code.toArray, labels := #[], fixups := #[] }
    targets := [] }

/-- The place of a label is known: it has been placed there or is pending. -/
def Assembly.Knows (s : Assembly) (pending : Label → Nat → Prop) (l : Label) (n : Nat) : Prop :=
  s.draft.labels[l]? = some (some n) ∨ pending l n

theorem Assembly.Knows.newLabel {s : Assembly} {pending more : Label → Nat → Prop} {l : Label}
    {n : Nat} (known : s.Knows pending l n) :
    Assembly.Knows { s with draft := s.draft.newLabel.2 } (fun l n => pending l n ∨ more l n) l n := by
  refine known.imp (fun placed => ?_) Or.inl
  have old := (Array.getElem?_eq_some_iff.mp placed).1
  simpa [Draft.newLabel, Array.getElem?_push, Nat.ne_of_lt old] using placed

/-- Between two states of an assembly entries have been written that become these instructions, once
the pending labels are placed. Labels that were handed out before are as they were. -/
structure Assembly.Emits (pending : Label → Nat → Prop) (s t : Assembly) (is : List Instr) :
    Prop where
  entries : ∃ xs, t.draft.code.toList = s.draft.code.toList ++ xs.map Draft.Entry.raw ∧
    t.draft.fixups.toList = s.draft.fixups.toList ++ Draft.Entry.marks s.draft.code.size xs ∧
    List.Forall₂ (Draft.Entry.Links (t.Knows pending)) xs is
  labels : s.draft.labels.size ≤ t.draft.labels.size
  old : ∀ l < s.draft.labels.size, t.draft.labels[l]? = s.draft.labels[l]?
  result : t.draft.result = s.draft.result
  here : t.here = s.here
  targets : t.targets = s.targets

namespace Assembly.Emits
variable {pending : Label → Nat → Prop} {s t u : Assembly} {is js : List Instr}

theorem size (h : Emits pending s t is) : t.draft.code.size = s.draft.code.size + is.length := by
  obtain ⟨xs, code, -, links⟩ := h.entries
  have length := congrArg List.length code
  simpa [links.length_eq] using length

/-- A label that has been placed stays there. -/
theorem known (h : Emits pending s t is) {l : Label} {n : Nat} (known : s.Knows pending l n) :
    t.Knows pending l n := by
  refine known.imp_left fun placed => ?_
  rw [h.old l (Array.getElem?_eq_some_iff.mp placed).1, placed]

theorem refl (s : Assembly) : Emits pending s s [] :=
  ⟨⟨[], by simp, by simp [Draft.Entry.marks], .nil⟩, le_rfl, fun _ _ => rfl, rfl, rfl, rfl⟩

theorem trans (first : Emits pending s t is) (second : Emits pending t u js) :
    Emits pending s u (is ++ js) where
  entries := by
    obtain ⟨xs, code, fixups, links⟩ := first.entries
    obtain ⟨ys, code', fixups', links'⟩ := second.entries
    refine ⟨xs ++ ys, by rw [code', code, List.map_append, List.append_assoc], ?_, ?_⟩
    · rw [fixups', fixups, first.size, Draft.Entry.marks_append, links.length_eq, List.append_assoc]
    · refine List.rel_append (links.imp fun x i => ?_) links'
      exact Draft.Entry.Links.mono fun l n => second.known
  labels := first.labels.trans second.labels
  old l low := (second.old l (low.trans_le first.labels)).trans (first.old l low)
  result := second.result.trans first.result
  here := second.here.trans first.here
  targets := second.targets.trans first.targets

/-- One more entry. -/
theorem write {x : Draft.Entry} {i : Instr}
    (links : x.Links (s.Knows pending) i) :
    Emits pending s { s with draft := s.draft.write x } [i] where
  entries := by
    refine ⟨[x], by simp [Draft.write], ?_, .cons links .nil⟩
    cases x <;> simp [Draft.write, Draft.Entry.marks]
  labels := le_rfl
  old _ _ := rfl
  result := rfl
  here := rfl
  targets := rfl

/-- Labels that are handed out and placed in between. -/
theorem relabel {labels : Array (Option Nat)}
    (h : Emits pending { s with draft := { s.draft with labels } } t is)
    (more : s.draft.labels.size ≤ labels.size)
    (same : ∀ l < s.draft.labels.size, labels[l]? = s.draft.labels[l]?) : Emits pending s t is where
  entries := h.entries
  labels := more.trans h.labels
  old l low := (h.old l (low.trans_le more)).trans (same l low)
  result := h.result
  here := h.here
  targets := h.targets

/-- A routine without pending labels can be finished. -/
theorem finish (h : Emits (fun _ _ => False) s t is) (code : s.draft.code = #[])
    (fixups : s.draft.fixups = #[]) :
    t.draft.finish = .ok ⟨t.draft.name, t.draft.params, t.draft.result, t.draft.locals,
      is.toArray⟩ := by
  obtain ⟨xs, code', fixups', links⟩ := h.entries
  have holds : t.draft.Holds xs := ⟨by simpa [code] using code', by simpa [code, fixups] using fixups'⟩
  have resolved := Draft.mapM_resolve (links.imp fun x i => Draft.Entry.Links.mono fun l n known =>
    known.resolve_right id)
  rw [holds.finish, resolved]
  rfl

end Assembly.Emits

namespace Assemble
variable {α β : Type} {pending : Label → Nat → Prop} {s : Assembly} {m n : Nat}

/-- Two actions go in step from a state on: both fail, with the same error, or both give the same and
write `n` instructions. The first may write branches to labels. -/
def InStep (pending : Label → Nat → Prop) (s : Assembly) (n : Nat) (x y : Assemble α) : Prop :=
  ∀ code : List Instr, code.length = s.draft.code.size →
    (∃ v t is, x s = .ok (v, t) ∧ y (s.recode code) = .ok (v, t.recode (code ++ is)) ∧
      is.length = n ∧ s.Emits pending t is) ∨
    ∃ e, x s = .error e ∧ y (s.recode code) = .error e

namespace InStep
variable {x y : Assemble α} {f g : α → Assemble β}

theorem pure (v : α) : InStep pending s 0 (pure v) (pure v) :=
  fun code _ => Or.inl ⟨v, s, [], rfl, by rw [List.append_nil]; rfl, rfl, .refl s⟩

theorem throw (e : Error) : InStep pending s n (throw e : Assemble α) (throw e) :=
  fun _ _ => Or.inr ⟨e, rfl, rfl⟩

theorem get {f : Assembly → Assemble α} (h : InStep pending s n (f s) y) :
    InStep pending s n (get >>= f) y :=
  h

theorem congr {z : Assemble α} (h : InStep pending s n x y) (same : z s = x s) :
    InStep pending s n z y := by
  intro code size
  rw [same]
  exact h code size

theorem bind (first : InStep pending s m x y)
    (second : ∀ v t is, s.Emits pending t is → is.length = m → InStep pending t n (f v) (g v)) :
    InStep pending s (m + n) (x >>= f) (y >>= g) := by
  intro code size
  rcases first code size with ⟨v, t, is, run, run', length, emits⟩ | ⟨e, run, run'⟩
  · have size' : (code ++ is).length = t.draft.code.size := by
      rw [List.length_append, emits.size, size]
    rw [state_bind_of_ok run, state_bind_of_ok run']
    rcases second v t is emits length (code ++ is) size' with
      ⟨w, u, js, run, run', length', emits'⟩ | failed
    · refine Or.inl ⟨w, u, is ++ js, run, by rw [run', List.append_assoc], ?_, emits.trans emits'⟩
      rw [List.length_append, length, length']
    · exact Or.inr failed
  · exact Or.inr ⟨e, state_bind_of_error run, state_bind_of_error run'⟩

/-- A label is handed out and placed after `n` instructions. Until then it is pending. -/
theorem label {x : Label → Assemble Unit} {y : Assemble Unit}
    (h : InStep (fun l k => pending l k ∨ l = s.draft.labels.size ∧ k = s.draft.code.size + n)
      { s with draft := s.draft.newLabel.2 } n (x s.draft.labels.size) y) :
    InStep pending s n (newLabel >>= fun l => x l >>= fun _ => place l) y := by
  have opened : (newLabel >>= fun l => x l >>= fun _ => place l) s =
      (x s.draft.labels.size >>= fun _ => place s.draft.labels.size)
        { s with draft := s.draft.newLabel.2 } := rfl
  intro code size
  rcases h code size with ⟨⟨⟩, t, is, run, run', rfl, emits⟩ | ⟨e, run, run'⟩
  · have low : s.draft.labels.size < t.draft.labels.size := by
      have := emits.labels
      simp only [Draft.newLabel, Array.size_push] at this
      omega
    have unplaced : t.draft.labels[s.draft.labels.size]? = some none := by
      rw [emits.old _ (by simp [Draft.newLabel])]
      simp [Draft.newLabel]
    have written := emits.size
    refine Or.inl ⟨(), { t with draft := t.draft.place s.draft.labels.size }, is,
      opened.trans (state_bind_of_ok run), run', rfl, ?_⟩
    refine ⟨?_, ?_, ?_, emits.result, emits.here, emits.targets⟩
    · obtain ⟨xs, code, fixups, links⟩ := emits.entries
      refine ⟨xs, code, fixups, links.imp fun x i => Draft.Entry.Links.mono ?_⟩
      rintro l k (placed | pending | ⟨rfl, rfl⟩)
      · have other : s.draft.labels.size ≠ l := by
          rintro rfl
          simp [unplaced] at placed
        exact Or.inl (by simpa [Draft.place, Array.getElem?_setIfInBounds_ne other] using placed)
      · exact Or.inr pending
      · exact Or.inl (by simp [Draft.place, low, written, Draft.newLabel])
    · simpa [Draft.place] using low.le
    · intro l below
      have other : s.draft.labels.size ≠ l := by omega
      have kept := emits.old l (by simp [Draft.newLabel]; omega)
      simp only [Draft.place, Array.getElem?_setIfInBounds_ne other, kept]
      simp [Draft.newLabel, Array.getElem?_push, other.symm]
  · exact Or.inr ⟨e, opened.trans (state_bind_of_error run), run'⟩

/-- Labels that are handed out and placed make no difference to other code. -/
theorem relabel {z : Assemble α} {labels : Array (Option Nat)}
    (h : InStep pending { s with draft := { s.draft with labels } } n x y)
    (same : z s = x { s with draft := { s.draft with labels } })
    (more : s.draft.labels.size ≤ labels.size)
    (old : ∀ l < s.draft.labels.size, labels[l]? = s.draft.labels[l]?) :
    InStep pending s n z y := by
  intro code size
  rw [same]
  rcases h code size with ⟨v, t, is, run, run', length, emits⟩ | failed
  · exact Or.inl ⟨v, t, is, run, run', length, emits.relabel more old⟩
  · exact Or.inr failed

/-- A target is open for a while. -/
theorem target {x y : Assemble Unit} (l : Label)
    (h : InStep pending { s with targets := l :: s.targets } n x y) :
    InStep pending s n (openTarget l >>= fun _ => x >>= fun _ => closeTarget) y := by
  have opened : (openTarget l >>= fun _ => x >>= fun _ => closeTarget) s =
      (x >>= fun _ => closeTarget) { s with targets := l :: s.targets } := rfl
  intro code size
  rcases h code size with ⟨⟨⟩, t, is, run, run', length, emits⟩ | ⟨e, run, run'⟩
  · refine Or.inl ⟨(), { t with targets := s.targets }, is, ?_, run', length, ?_⟩
    · rw [opened, state_bind_of_ok run]
      show Except.ok ((), { t with targets := t.targets.tail }) = _
      rw [emits.targets]
      rfl
    · exact ⟨emits.entries, emits.labels, emits.old, emits.result, emits.here, rfl⟩
  · exact Or.inr ⟨e, opened.trans (state_bind_of_error run), run'⟩

end InStep

theorem emit_inStep (i : Instr) : InStep pending s 1 (emit i) (emit i) := by
  intro code size
  refine Or.inl ⟨(), { s with draft := s.draft.write (.plain i) }, [i], rfl, ?_, rfl,
    .write (.plain i)⟩
  show Except.ok ((), _) = _
  simp [Assembly.recode, Draft.emit, Draft.write]

variable {a : Analysis}

/-- A branch goes to the label that stands where the jump goes. -/
theorem jump_inStep (j : Jump) {l : Label} {k : Nat} {distance : Int}
    (known : s.Knows pending l k)
    (far : s.draft.code.size + distance = k) :
    InStep pending s 1 (jump j l) (op a (.jump j distance)) := by
  intro code size
  have there : (s.draft.code.size + distance).toNat = k := by omega
  refine Or.inl ⟨(), { s with draft := s.draft.write (.branch j l) }, [j.instr k], rfl, ?_, rfl,
    .write (.branch known)⟩
  show Except.ok ((), _) = _
  simp [Assembly.recode, Draft.emit, Draft.write, size, there]

/-- An action that gives out storage and writes no code. -/
theorem InStep.storage {x : Assemble α} {v : α} {t : Assembly} (run : x s = .ok (v, t))
    (run' : ∀ code, x (s.recode code) = .ok (v, t.recode code)) (emits : s.Emits pending t []) :
    InStep pending s 0 x x := by
  refine fun code _ => Or.inl ⟨v, t, [], run, ?_, rfl, emits⟩
  rw [List.append_nil]
  exact run' code

theorem emits_withSlot (id : SymbolId) (slot : Slot) : s.Emits pending (s.withSlot id slot) [] :=
  { Assembly.Emits.refl s with }

theorem emits_withField (name : String) (id : SymbolId) (slot : Slot) :
    s.Emits pending (s.withField name id slot) [] :=
  { Assembly.Emits.refl s with }

theorem emits_withRoutine (id : SymbolId) (plain : String) :
    s.Emits pending (s.withRoutine id plain) [] :=
  { Assembly.Emits.refl s with }

theorem placeOf_inStep (id : SymbolId) : InStep pending s 0 (placeOf a id) (placeOf a id) := by
  cases ok : slotOf a id with
  | error e =>
    have failed (t : Assembly) : placeOf a id t = .error e := by
      rw [placeOf, ok]
      rfl
    exact fun code _ => Or.inr ⟨e, failed _, failed _⟩
  | ok slot =>
    cases found : s.places[id]? with
    | some place =>
      have known (t : Assembly) (same : t.places = s.places) := placeOf_known ok (same ▸ found)
      exact .storage (known s rfl) (fun code => known (s.recode code) rfl) (.refl s)
    | none =>
      have new (t : Assembly) (same : t.places = s.places) := placeOf_new ok (same ▸ found)
      by_cases isLocal : isLocal a id = true
      · simp only [if_pos isLocal, allocate_eq] at new
        by_cases room : s.draft.locals.size < Draft.slotLimit
        · refine .storage (v := (.slot s.draft.locals.size, slot)) (t := s.withSlot id slot) ?_
            (fun code => ?_) (emits_withSlot ..)
          · rw [new s rfl, if_pos room]
            rfl
          · rw [new (s.recode code) rfl, if_pos (by exact room)]
            rfl
        · refine fun code _ => Or.inr ⟨tooManyLocals s.draft.name, ?_, ?_⟩
          · rw [new s rfl, if_neg room]
            rfl
          · rw [new (s.recode code) rfl, if_neg (by exact room)]
            rfl
      · simp only [if_neg isLocal] at new
        exact .storage (t := s.withField (nameOf a id) id slot) (new s rfl)
          (fun code => new (s.recode code) rfl) (emits_withField ..)

/-- The name of a routine does not depend on the code that has been written. -/
theorem routineOf_ends (s : Assembly) (id : SymbolId) : ∃ name t, routineOf a id s = .ok (name, t) ∧
    (∀ code, routineOf a id (s.recode code) = .ok (name, t.recode code)) ∧
    ∀ pending, s.Emits pending t [] := by
  by_cases known : ∃ name, s.places[id]? = some (.routine name)
  · obtain ⟨name, known⟩ := known
    have found (t : Assembly) (same : t.places = s.places) : routineOf a id t = .ok (name, t) :=
      routineOf_known (same ▸ known)
    exact ⟨name, s, found s rfl, fun code => found (s.recode code) rfl, fun _ => .refl s⟩
  · have new (t : Assembly) (same : t.places = s.places) :=
      routineOf_new (a := a) (s := t) fun name found => known ⟨name, same ▸ found⟩
    exact ⟨_, _, new s rfl, fun code => new (s.recode code) rfl, fun _ => emits_withRoutine ..⟩

theorem routineOf_inStep (id : SymbolId) :
    InStep pending s 0 (routineOf a id) (routineOf a id) := by
  obtain ⟨name, t, run, run', emits⟩ := routineOf_ends (a := a) s id
  exact .storage run run' (emits pending)

theorem ops_append (xs ys : List Op) :
    ops a (xs ++ ys) = ops a xs >>= fun _ => ops a ys := by
  induction xs with
  | nil => simp [ops]
  | cons x xs ih => simp [ops, ih]

/-- An action emits what symbolic code says. -/
def Realizes (a : Analysis) (pending : Label → Nat → Prop) (s : Assembly) (x : Assemble Unit)
    (code : List Op) : Prop :=
  InStep pending s (Op.sizeAll code) x (ops a code)

namespace Realizes
variable {x y : Assemble Unit} {xs ys : List Op}

theorem nil : Realizes a pending s (pure ()) [] :=
  .pure ()

theorem single {o : Op} (h : InStep pending s o.size x (op a o)) : Realizes a pending s x [o] := by
  have alone : ops a [o] = op a o := by simp [ops]
  rw [Realizes, alone]
  exact h

theorem append (first : Realizes a pending s x xs)
    (second : ∀ t is, s.Emits pending t is → is.length = Op.sizeAll xs →
      Realizes a pending t y ys) :
    Realizes a pending s (x >>= fun _ => y) (xs ++ ys) := by
  rw [Realizes, Op.sizeAll_append, ops_append]
  exact first.bind fun _ t is emits length => second t is emits length

/-- What follows need not know what has been written. -/
theorem andThen (first : Realizes a pending s x xs) (second : ∀ t, Realizes a pending t y ys) :
    Realizes a pending s (x >>= fun _ => y) (xs ++ ys) :=
  first.append fun t _ _ _ => second t

/-- An action that needs the symbol of an identifier. -/
theorem named {name : Ident} {f : SymbolId → Assemble Unit} {code : SymbolId → List Op}
    (h : ∀ id, Realizes a pending s (f id) (code id ++ ys)) :
    Realizes a pending s (do let id ← a.binding name; f id) (a.withSymbol name code ++ ys) := by
  unfold Analysis.withSymbol
  cases bound : a.binding name with
  | ok id => exact h id
  | error e => exact fun _ _ => Or.inr ⟨e, rfl, rfl⟩

theorem named_only {name : Ident} {f : SymbolId → Assemble Unit} {code : SymbolId → List Op}
    (h : ∀ id, Realizes a pending s (f id) (code id)) :
    Realizes a pending s (do let id ← a.binding name; f id) (a.withSymbol name code) := by
  rw [← List.append_nil (a.withSymbol name code)]
  refine named fun id => ?_
  rw [List.append_nil]
  exact h id

/-- One action for each element of a list. -/
theorem forM {ι : Type} {f : ι → Assemble Unit} {code : ι → List Op}
    (h : ∀ i s, Realizes a pending s (f i) (code i)) (is : List ι) (s : Assembly) :
    Realizes a pending s (is.forM f) (is.flatMap code) := by
  induction is generalizing s with
  | nil => exact nil
  | cons i is ih => exact (h i s).andThen ih

end Realizes

theorem emit_realizes (i : Instr) : Realizes a pending s (emit i) [.instr i] :=
  .single (emit_inStep i)

theorem load_realizes (id : SymbolId) : Realizes a pending s (load a id) [.load id] :=
  .single ((placeOf_inStep id).bind fun _ _ _ _ _ => emit_inStep _)

theorem store_realizes (id : SymbolId) : Realizes a pending s (store a id) [.store id] :=
  .single ((placeOf_inStep id).bind fun _ _ _ _ _ => emit_inStep _)

theorem invoke_realizes (id : SymbolId) :
    Realizes a pending s (do let name ← routineOf a id; emit (.invoke name)) [.invoke id] :=
  .single ((routineOf_inStep id).bind fun _ _ _ _ _ => emit_inStep _)

theorem cast_realizes (ty needed : Ty) :
    Realizes a pending s (cast ty needed) (Analysis.cast ty needed) := by
  cases ty <;> cases needed <;> first | exact .nil | exact emit_realizes _

theorem jump_realizes (j : Jump) {l : Label} {k : Nat} {distance : Int}
    (known : s.Knows pending l k)
    (far : s.draft.code.size + distance = k) :
    Realizes a pending s (jump j l) [.jump j distance] :=
  .single (jump_inStep j known far)

/-- A label that is placed after it was handed out. -/
theorem placed_last (labels : Array (Option Nat)) (p : Nat) :
    (labels.push none).setIfInBounds labels.size (some p) = labels.push (some p) := by
  apply Array.ext'
  simp

/-- Two labels that are placed after they were handed out. -/
theorem placed_both (labels : Array (Option Nat)) (p q : Nat) :
    (((labels.push none).push none).setIfInBounds labels.size (some p)).setIfInBounds
      (labels.size + 1) (some q) = (labels.push (some p)).push (some q) := by
  apply Array.ext'
  simp

theorem truth_realizes (otherwise : Jump) :
    Realizes a pending s (truth otherwise) (Analysis.truth otherwise) := by
  -- The two labels could as well have their places from the start.
  let labels := (s.draft.labels.push (some (s.draft.code.size + 3))).push
    (some (s.draft.code.size + 4))
  let t : Assembly := { s with draft := { s.draft with labels } }
  have first : labels[s.draft.labels.size]? = some (some (s.draft.code.size + 3)) := by
    simp only [labels]
    rw [Array.getElem?_push, if_neg (by simp), Array.getElem?_push_size]
  have second : labels[s.draft.labels.size + 1]? = some (some (s.draft.code.size + 4)) := by
    simp only [labels]
    rw [Array.getElem?_push, if_pos (by simp)]
  have steps : Realizes a pending t (do
      jump otherwise s.draft.labels.size
      emit (.iconst 1)
      jump .always (s.draft.labels.size + 1)
      emit (.iconst 0)) (Analysis.truth otherwise) := by
    refine (jump_realizes otherwise (Or.inl first) rfl).append fun _ _ emits₁ length₁ => ?_
    refine (emit_realizes _).append fun _ _ emits₂ length₂ => ?_
    refine (jump_realizes .always (emits₂.known (emits₁.known (Or.inl second))) ?_).andThen
      fun _ => emit_realizes _
    rw [emits₂.size, emits₁.size, length₁, length₂]
    rfl
  refine steps.relabel ?_ (by simp [labels]; omega) fun l low => ?_
  · show Except.ok ((), _) = Except.ok ((), _)
    simp only [labels, Draft.newLabel, Draft.jump, Draft.place, Draft.emit, Array.size_push,
      placed_both]
  · simp [labels, Array.getElem?_push, Nat.ne_of_lt low, Nat.ne_of_lt (Nat.lt_succ_of_lt low)]

/-- Two operands, and what puts them together. -/
theorem operands_realize {x y z : Assemble Unit} {xs ys zs : List Op}
    (first : ∀ s, Realizes a pending s x xs) (second : ∀ s, Realizes a pending s y ys)
    (last : ∀ s, Realizes a pending s z zs) :
    Realizes a pending s (x >>= fun _ => y >>= fun _ => z) (xs ++ ys ++ zs) := by
  rw [List.append_assoc]
  exact (first s).andThen fun t => (second t).andThen last

theorem call_realizes {callee : Ident} {args : List Ty → Assemble Unit} {code : List Ty → List Op}
    (h : ∀ tys s, Realizes a pending s (args tys) (code tys)) :
    Realizes a pending s (call a callee args)
      (a.withSymbol callee fun id => code (a.paramTypes id) ++ [.invoke id]) :=
  .named_only fun id => (h _ s).andThen fun _ => invoke_realizes id

mutual

theorem expr_realizes {pending : Label → Nat → Prop} : (e : Expr) → (needed : Ty) →
    (s : Assembly) → Realizes a pending s (expr a needed e) (a.lowerExpr needed e)
  | .int .., _, _ | .float .., _, _ | .bool .., _, _ => by
    rw [expr, Analysis.lowerExpr]
    exact emit_realizes _
  | .paren _ inner, needed, s => by
    rw [expr, Analysis.lowerExpr]
    exact expr_realizes inner needed s
  | .var node name, needed, s => by
    rw [expr, Analysis.lowerExpr]
    exact .named fun id => (load_realizes id).andThen fun _ => cast_realizes _ _
  | .index node array i, needed, s => by
    simp only [expr, Analysis.lowerExpr, List.append_assoc]
    refine .named fun id => (load_realizes id).andThen fun t => ?_
    refine (expr_realizes i .int t).andThen fun _ => ?_
    exact (emit_realizes _).andThen fun _ => cast_realizes _ _
  | .call node callee args, needed, s => by
    rw [expr, Analysis.lowerExpr]
    refine (call_realizes fun tys t => ?_).andThen fun _ => cast_realizes _ _
    exact exprs_realize args tys t
  | .unary node .neg operand, needed, s => by
    simp only [expr, Analysis.lowerExpr, List.append_assoc]
    refine (expr_realizes operand _ s).andThen fun _ => ?_
    exact (emit_realizes _).andThen fun _ => cast_realizes _ _
  | .unary node .not operand, needed, s => by
    simp only [expr, Analysis.lowerExpr, List.append_assoc]
    refine (expr_realizes operand _ s).andThen fun _ => ?_
    exact (truth_realizes _).andThen fun _ => cast_realizes _ _
  | .binary node op lhs rhs, needed, s => by
    have left (ty : Ty) (t : Assembly) : Realizes a pending t (expr a ty lhs) (a.lowerExpr ty lhs) :=
      expr_realizes lhs ty t
    have right (ty : Ty) (t : Assembly) : Realizes a pending t (expr a ty rhs) (a.lowerExpr ty rhs) :=
      expr_realizes rhs ty t
    simp only [expr, Analysis.lowerExpr]
    refine Realizes.andThen ?_ fun _ => cast_realizes _ _
    cases op with
    | add | sub | mul | slash | div | mod | and | or =>
      exact operands_realize (left _) (right _) fun _ => emit_realizes _
    | lt | gt | le | ge | eq | ne =>
      simp only [binary]
      split
      · rw [List.append_assoc]
        exact operands_realize (left _) (right _) fun _ =>
          (emit_realizes _).andThen fun _ => truth_realizes _
      · exact operands_realize (left _) (right _) fun _ => truth_realizes _

theorem exprs_realize {pending : Label → Nat → Prop} : (es : List Expr) → (tys : List Ty) →
    (s : Assembly) → Realizes a pending s (exprs a es tys) (a.lowerArgs es tys)
  | [], _, _ => by
    rw [exprs, Analysis.lowerArgs]
    · exact .nil
    all_goals simp
  | _ :: _, [], _ => by
    rw [exprs, Analysis.lowerArgs]
    · exact .nil
    all_goals simp
  | e :: es, ty :: tys, s => by
    rw [exprs, Analysis.lowerArgs]
    exact (expr_realizes e ty s).andThen fun t => exprs_realize es tys t

end

section Statements
variable (pending s)

theorem arrays_realize (ty : Ty) (size : Expr) (names : List Ident) :
    Realizes a pending s (arrays a ty size names) (a.lowerArrays ty size names) := by
  refine .forM (fun name t => .named_only fun id => ?_) names s
  exact (expr_realizes size .int t).andThen fun _ =>
    (emit_realizes _).andThen fun _ => store_realizes id

theorem source_realizes (target : Target) (value : Expr) :
    Realizes a pending s (source a target value) (a.lowerSource target value) := by
  cases target with
  | var name => exact .named_only fun id => expr_realizes value _ s
  | index array i =>
    refine .named_only fun id => ?_
    rw [List.append_assoc]
    exact (load_realizes id).andThen fun t => (expr_realizes i .int t).andThen fun u =>
      expr_realizes value _ u

theorem storeTo_realizes (target : Target) :
    Realizes a pending s (storeTo a target) (a.lowerStore target) := by
  cases target with
  | var name => exact .named_only fun id => store_realizes id
  | index array i => exact .named_only fun id => emit_realizes _

theorem assign_realizes (targets : List Target) (values : List Expr) :
    Realizes a pending s (assign a targets values) (a.lowerAssign targets values) := by
  have first := Realizes.forM (fun (pair : Target × Expr) t =>
    source_realizes (a := a) pending t pair.1 pair.2) (targets.zip values) s
  exact first.andThen fun t => .forM (fun target u => storeTo_realizes pending u target) _ t

theorem input_realizes (names : List Ident) :
    Realizes a pending s (input a names) (a.lowerInput names) := by
  refine .forM (fun name t => .named_only fun id => ?_) names s
  exact (emit_realizes _).andThen fun _ => (emit_realizes _).andThen fun _ =>
    store_realizes id

theorem print_realizes (value : Expr) :
    Realizes a pending s (print a value) (a.lowerPrint value) :=
  (expr_realizes value _ s).andThen fun _ => emit_realizes _

theorem ret_realizes (value : Option Expr) :
    Realizes a pending s (ret a value) (a.lowerReturn s.here value) := by
  cases value with
  | none => exact emit_realizes _
  | some value =>
    rw [ret]
    refine .get ?_
    dsimp only
    cases s.here with
    | none => exact Realizes.single (.throw _)
    | some method => exact (expr_realizes value _ s).andThen fun _ => emit_realizes _

/-- The end of a body that was begun as the routine of a method. -/
theorem ending_realizes {method : SymbolId} (line : Nat)
    (result : resultOf a method = .ok s.draft.result) :
    Realizes a pending s (ending line) (a.lowerEnd method line) := by
  unfold ending Analysis.lowerEnd
  refine .get ?_
  by_cases function : (a.symbolKind method).isFunction = true
  · rw [resultOf, if_pos function] at result
    rw [if_pos function]
    obtain ⟨slot, scalar, given⟩ : ∃ slot, Slot.scalar (a.symbolType method) = .ok slot ∧
        s.draft.result = some slot := by
      cases scalar : Slot.scalar (a.symbolType method) with
      | error e => simp [scalar, Functor.map, Except.map] at result
      | ok slot => exact ⟨slot, rfl, by simpa [scalar, Functor.map, Except.map, eq_comm] using result⟩
    have float : slot = .float ↔ a.symbolType method = .float := by
      generalize a.symbolType method = ty at scalar
      cases ty <;> cases scalar <;> decide
    simp only [given, float]
    refine (emit_realizes _).andThen fun _ => (emit_realizes _).andThen fun _ => ?_
    split
    · exact (emit_realizes _).andThen fun _ => emit_realizes _
    · exact (emit_realizes _).andThen fun _ => emit_realizes _
  · rw [resultOf, if_neg function] at result
    rw [if_neg function, ← Except.ok.inj result]
    exact emit_realizes _

end Statements

/-- Allocation of local slots gives places to symbols and nothing else. -/
theorem allocateAll_kept {pairs : List (SymbolId × Slot)} {t : Assembly}
    (run : (pairs.forM fun (id, slot) => discard (allocate id slot)) s = .ok ((), t)) :
    { t with places := s.places, draft := { t.draft with locals := s.draft.locals } } = s := by
  induction pairs generalizing s with
  | nil =>
    obtain ⟨-, rfl⟩ := state_pure_ok.mp run
    rfl
  | cons pair pairs ih =>
    obtain ⟨⟨⟩, u, first, rest⟩ := state_bind_ok.mp run
    obtain ⟨place, first⟩ := state_discard_ok.mp first
    rw [allocate_eq] at first
    split at first
    · obtain rfl : s.withSlot pair.1 pair.2 = u := (Prod.mk.inj (Except.ok.inj first)).2
      have later := ih rest
      exact congrArg (fun v : Assembly =>
        { v with places := s.places, draft := { v.draft with locals := s.draft.locals } }) later
    · cases first

/-- A routine that has just been opened. -/
structure Fresh (a : Analysis) (method : SymbolId) (u : Assembly) : Prop where
  code : u.draft.code = #[]
  labels : u.draft.labels = #[]
  fixups : u.draft.fixups = #[]
  result : resultOf a method = .ok u.draft.result
  here : u.here = some method
  targets : u.targets = []

theorem openRoutine_fresh {method : SymbolId} {u : Assembly}
    (run : openRoutine a method s = .ok ((), u)) : Fresh a method u := by
  obtain ⟨name, t, -, run⟩ := state_bind_ok.mp run
  obtain ⟨result, t', resultOk, run⟩ := state_bind_ok.mp run
  obtain ⟨slots, t'', -, run⟩ := state_bind_ok.mp run
  obtain ⟨⟨⟩, v, opened, run⟩ := state_bind_ok.mp run
  obtain rfl := (Prod.mk.inj (Except.ok.inj opened)).2
  have kept := allocateAll_kept run
  exact {
    code := congrArg (·.draft.code) kept
    labels := congrArg (·.draft.labels) kept
    fixups := congrArg (·.draft.fixups) kept
    result := by
      rw [(state_lift_ok.mp resultOk).1]
      exact congrArg (fun v => Except.ok v.draft.result) kept.symm
    here := congrArg (·.here) kept
    targets := congrArg (·.targets) kept }

/-- What has been written in the routine around a method makes no difference to the method. -/
theorem openRoutine_recode (method : SymbolId) (code : List Instr) :
    openRoutine a method (s.recode code) = openRoutine a method s := by
  obtain ⟨name, t, run, run', -⟩ := routineOf_ends (a := a) s method
  rw [openRoutine, state_bind_of_ok run, state_bind_of_ok (run' code)]
  dsimp only
  cases resultOf a method with
  | error e => rfl
  | ok result =>
    cases (a.params method).mapM (slotOf a) with
    | error e => rfl
    | ok slots => rfl

theorem Fresh.recode {method : SymbolId} {u : Assembly} (fresh : Fresh a method u) :
    u.recode [] = u := by
  have code : ([] : List Instr).toArray = u.draft.code := fresh.code.symm
  rw [Assembly.recode, code, ← fresh.labels, ← fresh.fixups, ← fresh.targets]

theorem method_realizes {method : SymbolId} {x : Assemble Unit} {body : List Op}
    (h : ∀ u, Fresh a method u → Realizes a (fun _ _ => False) u x body) :
    Realizes a pending s (do
      let outer ← get
      openRoutine a method
      x
      closeRoutine outer) [.method method body] := by
  refine .single (.get fun code size => ?_)
  have symbolic : op a (.method method body) (s.recode code) =
      (openRoutine a method >>= fun _ => ops a body >>= fun _ => closeRoutine (s.recode code))
        (s.recode code) := by
    rw [op]
    rfl
  rw [symbolic]
  cases opened : openRoutine a method s with
  | error e =>
    have opened' := (openRoutine_recode method code).trans opened
    exact Or.inr ⟨e, state_bind_of_error opened, state_bind_of_error opened'⟩
  | ok p =>
    obtain ⟨⟨⟩, u⟩ := p
    have opened' := (openRoutine_recode method code).trans opened
    have fresh := openRoutine_fresh opened
    rw [state_bind_of_ok opened, state_bind_of_ok opened']
    rcases h u fresh [] (by simp [fresh.code]) with
      ⟨⟨⟩, t, is, run, run', -, emits⟩ | ⟨e, run, run'⟩
    · rw [fresh.recode, List.nil_append] at run'
      have plain : (t.recode is).draft.Plain := rfl
      refine Or.inl ⟨(), _, [], (state_bind_of_ok run).trans
        (closeRoutine_finish s (emits.finish fresh.code fresh.fixups)), ?_, rfl,
        { Assembly.Emits.refl s with }⟩
      rw [List.append_nil]
      exact (state_bind_of_ok run').trans (closeRoutine_finish _ plain.finish)
    · rw [fresh.recode] at run'
      exact Or.inr ⟨e, state_bind_of_error run, state_bind_of_error run'⟩

theorem target_open {next : Label} (opens : s.targets.head? = some next) :
    target s = .ok (next, s) := by
  obtain ⟨rest, targets⟩ := List.head?_eq_some_iff.mp opens
  have same : s = { s with targets := next :: rest } := by rw [← targets]
  rw [same]
  rfl

/-- A guard whose body goes on at the target, which is `distance` instructions on from there. -/
theorem guard_realizes {next : Label} {k : Nat} {distance : Int} {code : List Op} (node : Node)
    (cond : Expr) (body : Stmt) (opens : s.targets.head? = some next) (known : s.Knows pending next k)
    (far : (s.draft.code.size + Op.sizeAll (a.lowerExpr .boolean cond) + 1 + Op.sizeAll code : Int) +
      distance = k)
    (h : ∀ pending t, t.here = s.here → Realizes a pending t (stmt a body) code) :
    Realizes a pending s (guard a (.mk node cond body))
      (a.lowerExpr .boolean cond ++ [.jump (.onZero .eq) (Op.sizeAll code + 2)] ++ code ++
        [.jump .always distance]) := by
  have opened : guard a (.mk node cond body) s = (newLabel >>= fun fail => (do
      expr a .boolean cond
      jump (.onZero .eq) fail
      stmt a body
      jump .always next) >>= fun _ => place fail) s := by
    rw [guard, state_bind_of_ok (target_open opens)]
    simp only [bind_assoc]
  refine InStep.congr (.label ?_) opened
  simp only [List.append_assoc]
  refine (expr_realizes cond .boolean _).append fun t is emits length => ?_
  have tested : t.draft.code.size =
      s.draft.code.size + Op.sizeAll (a.lowerExpr .boolean cond) := by
    rw [emits.size, length]
    rfl
  refine (jump_realizes _ (Or.inr (Or.inr ⟨rfl, rfl⟩)) ?_).append fun u is' emits' length' => ?_
  · simp only [Op.sizeAll_append, Op.sizeAll_cons, Op.sizeAll_nil, Op.size]
    omega
  have branched : u.draft.code.size = t.draft.code.size + 1 := by
    rw [emits'.size, length']
    rfl
  refine (h _ u (emits'.here.trans emits.here)).append fun v is'' emits'' length'' => ?_
  refine jump_realizes _ (k := k) (emits''.known (emits'.known (emits.known known.newLabel))) ?_
  rw [emits''.size, length'']
  omega

/-- An alternative, given what its guards and the failure after them are. -/
theorem alternative_realizes {line : Int32} {gs : List Guard} {code : List Op}
    (h : ∀ pending next t, t.here = s.here → t.targets.head? = some next →
      t.Knows pending next (t.draft.code.size + Op.sizeAll code) →
      Realizes a pending t (do
        guards a gs
        emit (.iconst line)
        emit (.service .abortNoAlternative)) code) :
    Realizes a pending s (do
      let done ← newLabel
      openTarget done
      guards a gs
      closeTarget
      emit (.iconst line)
      emit (.service .abortNoAlternative)
      place done) code := by
  -- The target could as well be closed after the failure, which does not look at it.
  have late (x : Assemble Unit) : (do
      closeTarget
      emit (.iconst line)
      emit (.service .abortNoAlternative)
      x) = (do
      emit (.iconst line)
      emit (.service .abortNoAlternative)
      closeTarget
      x) := rfl
  have opened (done : Label) : (do
      openTarget done
      guards a gs
      closeTarget
      emit (.iconst line)
      emit (.service .abortNoAlternative)
      place done) = (do
        openTarget done
        (do
          guards a gs
          emit (.iconst line)
          emit (.service .abortNoAlternative))
        closeTarget) >>= fun _ => place done := by
    simp only [bind_assoc, late]
  simp only [opened]
  exact InStep.label (.target _ (h _ _ _ rfl rfl (Or.inr (Or.inr ⟨rfl, rfl⟩))))

/-- A loop, given what its guards are. -/
theorem iterative_realizes {gs : List Guard} {code : List Op}
    (h : ∀ top t, t.here = s.here → t.targets.head? = some top →
      t.Knows pending top t.draft.code.size → Realizes a pending t (guards a gs) code) :
    Realizes a pending s (do
      let top ← newLabel
      place top
      openTarget top
      guards a gs
      closeTarget) code := by
  have placed : (s.draft.labels.push (some s.draft.code.size))[s.draft.labels.size]? =
      some (some s.draft.code.size) := Array.getElem?_push_size
  let t : Assembly :=
    { s with draft := { s.draft with labels := s.draft.labels.push (some s.draft.code.size) } }
  have steps : Realizes a pending t (do
      openTarget s.draft.labels.size
      guards a gs
      closeTarget) code := .target _ (h _ _ rfl rfl (Or.inl placed))
  refine steps.relabel ?_ (by simp) fun l low => ?_
  · rw [← placed_last]
    rfl
  · rw [Array.getElem?_push, if_neg (Nat.ne_of_lt low)]

mutual

theorem stmt_realizes {here : Option SymbolId} : (st : Stmt) → (pending : Label → Nat → Prop) →
    (s : Assembly) → s.here = here → Realizes a pending s (stmt a st) (a.lowerStmt here st)
  | .varDecl .., _, _, _ => by
    rw [stmt, Analysis.lowerStmt]
    exact .nil
  | .arrayDecl _ ty size names, pending, s, _ => by
    rw [stmt, Analysis.lowerStmt]
    exact arrays_realize pending s ty size names
  | .method _ name _ _ _ body, pending, s, _ => by
    rw [stmt, Analysis.lowerStmt]
    refine .named_only fun id => ?_
    have whole : Realizes a pending s _ _ := method_realizes fun u (fresh : Fresh a id u) =>
      (stmts_realize body _ u fresh.here).append fun t _ emits _ =>
        ending_realizes _ t name.span.line (emits.result ▸ fresh.result)
    simpa only [bind_assoc] using whole
  | .assign _ targets values, pending, s, _ => by
    rw [stmt, Analysis.lowerStmt]
    exact assign_realizes pending s targets values
  | .input _ names, pending, s, _ => by
    rw [stmt, Analysis.lowerStmt]
    exact input_realizes pending s names
  | .print _ value, pending, s, _ => by
    rw [stmt, Analysis.lowerStmt]
    exact print_realizes pending s value
  | .alternative node gs, pending, s, inside => by
    rw [stmt, Analysis.lowerStmt]
    exact alternative_realizes fun pending next t same opens known =>
      choice_realizes gs pending t (same.trans inside) opens known
  | .iterative _ gs, pending, s, inside => by
    rw [stmt, Analysis.lowerStmt]
    exact iterative_realizes fun top t same opens known =>
      loop_realizes gs pending t (same.trans inside) opens known rfl
  | .block _ _ body, pending, s, inside => by
    rw [stmt, Analysis.lowerStmt]
    exact stmts_realize body pending s inside
  | .ret _ value, pending, s, inside => by
    rw [stmt, Analysis.lowerStmt, ← inside]
    exact ret_realizes pending s value
  | .call _ callee args, pending, s, _ => by
    rw [stmt, Analysis.lowerStmt]
    exact call_realizes fun tys t => exprs_realize args tys t

theorem stmts_realize {here : Option SymbolId} : (sts : List Stmt) →
    (pending : Label → Nat → Prop) → (s : Assembly) → s.here = here →
    Realizes a pending s (stmts a sts) (a.lowerStmts here sts)
  | [], _, _, _ => by
    rw [stmts, Analysis.lowerStmts]
    exact .nil
  | st :: sts, pending, s, inside => by
    rw [stmts, Analysis.lowerStmts]
    exact (stmt_realizes st pending s inside).append fun t _ emits _ =>
      stmts_realize sts pending t (emits.here.trans inside)

theorem choice_realizes {here : Option SymbolId} {line : Int32} {next : Label} :
    (gs : List Guard) → (pending : Label → Nat → Prop) → (s : Assembly) → s.here = here →
    s.targets.head? = some next →
    s.Knows pending next (s.draft.code.size + Op.sizeAll (a.lowerChoice here line gs)) →
    Realizes a pending s (do
      guards a gs
      emit (.iconst line)
      emit (.service .abortNoAlternative)) (a.lowerChoice here line gs)
  | [], pending, s, _, _, _ => by
    rw [guards, Analysis.lowerChoice, pure_bind]
    exact (emit_realizes _).andThen fun _ => emit_realizes _
  | .mk node cond body :: gs, pending, s, inside, opens, known => by
    rw [Analysis.lowerChoice] at known ⊢
    rw [guards, bind_assoc]
    refine (guard_realizes node cond body opens known ?_ fun pending t same =>
      stmt_realizes body pending t (same.trans inside)).append fun t is emits length => ?_
    · simp only [Op.sizeAll_append, Op.sizeAll_cons, Op.sizeAll_nil, Op.size]
      omega
    · refine choice_realizes gs pending t (emits.here.trans inside) (emits.targets ▸ opens) ?_
      rw [emits.size, length, Nat.add_assoc, ← Op.sizeAll_append]
      exact emits.known known

theorem loop_realizes {here : Option SymbolId} {before k : Nat} {top : Label} :
    (gs : List Guard) → (pending : Label → Nat → Prop) → (s : Assembly) → s.here = here →
    s.targets.head? = some top → s.Knows pending top k → k + before = s.draft.code.size →
    Realizes a pending s (guards a gs) (a.lowerLoop here before gs)
  | [], pending, s, _, _, _, _ => by
    rw [guards, Analysis.lowerLoop]
    exact .nil
  | .mk node cond body :: gs, pending, s, inside, opens, known, far => by
    rw [guards, Analysis.lowerLoop]
    refine (guard_realizes node cond body opens known ?_ fun pending t same =>
      stmt_realizes body pending t (same.trans inside)).append fun t is emits length => ?_
    · omega
    · refine loop_realizes gs pending t (emits.here.trans inside) (emits.targets ▸ opens)
        (emits.known known) ?_
      simp only [Op.sizeAll_append, Op.sizeAll_cons, Op.sizeAll_nil, Op.size] at length
      rw [emits.size, length]
      omega

end

end Assemble

/-- The unit of a program is its symbolic code turned into object code. -/
theorem Analysis.generate_eq (a : Analysis) (package : String) (p : Program) :
    a.generate package p = a.assemble package p.name.name (a.lower p) := by
  have whole : Assemble.Realizes a (fun _ _ => False) .initial (do
      Assemble.stmts a p.body
      Assemble.emit .ret) (a.lower p) :=
    (Assemble.stmts_realize p.body _ _ rfl).andThen fun _ => Assemble.emit_realizes _
  unfold generate assemble
  rcases whole [] rfl with ⟨⟨⟩, t, is, run, run', -, emits⟩ | ⟨e, run, run'⟩
  · have plain : (t.recode is).draft.Plain := rfl
    have finished := emits.finish rfl rfl
    change Assemble.ops a (a.lower p) .initial = .ok ((), t.recode is) at run'
    simp only [StateT.run, run, run']
    simp only [bind, Except.bind, finished, plain.finish]
    rfl
  · change Assemble.ops a (a.lower p) .initial = _ at run'
    simp only [StateT.run, run, run']

end Guarded

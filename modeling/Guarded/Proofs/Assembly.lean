import Guarded.Proofs.Layout

/-!
Laying out the code of a program. Code that is in scope gets laid out in one way or fails for one
reason: some routine has more locals than there are slots. The proof follows the code: what one item
does to the unit under construction, then what a list of items does, a method being a list of items
in a routine of its own.
-/

namespace Guarded

/-- An action ends in one of two ways. -/
def Yields {α : Type} (act : Assemble α) (s : Assembly) (good : α → Assembly → Prop)
    (bad : Error → Prop) : Prop :=
  (∃ v t, act s = .ok (v, t) ∧ good v t) ∨ ∃ e, act s = .error e ∧ bad e

namespace Yields
variable {α β : Type} {act : Assemble α} {next : α → Assemble β} {s : Assembly}
variable {good : α → Assembly → Prop} {good' : β → Assembly → Prop} {bad bad' : Error → Prop}

theorem bind (first : Yields act s good bad) (failed : ∀ e, bad e → bad' e)
    (second : ∀ v t, good v t → Yields (next v) t good' bad') :
    Yields (act >>= next) s good' bad' := by
  have opened : (act >>= next) s = (act s).bind fun p => next p.1 p.2 := rfl
  rcases first with ⟨v, t, eq, isGood⟩ | ⟨e, eq, isBad⟩
  · have opened : (act >>= next) s = next v t := by rw [opened, eq]; rfl
    rcases second v t isGood with ⟨w, u, eq', isGood'⟩ | ⟨e, eq', isBad'⟩
    · exact Or.inl ⟨w, u, opened.trans eq', isGood'⟩
    · exact Or.inr ⟨e, opened.trans eq', isBad'⟩
  · exact Or.inr ⟨e, by rw [opened, eq]; rfl, failed e isBad⟩

theorem bind_ok {v : α} {t : Assembly} (eq : act s = .ok (v, t))
    (second : Yields (next v) t good' bad') : Yields (act >>= next) s good' bad' := by
  have first : Yields act s (fun w u => w = v ∧ u = t) bad' := Or.inl ⟨v, t, eq, rfl, rfl⟩
  refine first.bind (fun _ isBad => isBad) ?_
  rintro w u ⟨rfl, rfl⟩
  exact second

theorem of_ok {v : α} {t : Assembly} (eq : act s = .ok (v, t)) (isGood : good v t) :
    Yields act s good bad :=
  Or.inl ⟨v, t, eq, isGood⟩

theorem of_error {e : Error} (eq : act s = .error e) (isBad : bad e) : Yields act s good bad :=
  Or.inr ⟨e, eq, isBad⟩

theorem imp {good' : α → Assembly → Prop} (h : Yields act s good bad)
    (better : ∀ v t, good v t → good' v t) (worse : ∀ e, bad e → bad' e) :
    Yields act s good' bad' := by
  rcases h with ⟨v, t, eq, isGood⟩ | ⟨e, eq, isBad⟩
  · exact of_ok eq (better v t isGood)
  · exact of_error eq (worse e isBad)

end Yields

theorem Overflows.mono {a : Analysis} {method : SymbolId} {syms syms' asked asked' : List SymbolId}
    (h : Overflows a method syms asked)
    (known : ∀ x ∈ syms, x ∈ syms' ∨ x ∈ asked' ∧ a.ownerOf x = some method)
    (more : ∀ x ∈ asked, x ∈ syms' ∨ x ∈ asked') : Overflows a method syms' asked' := by
  obtain ⟨xs, nodup, many, each⟩ := h
  refine ⟨xs, nodup, many, fun x mem => ?_⟩
  rcases each x mem with mem | ⟨mem, own⟩
  · exact known x mem
  · exact (more x mem).imp_right fun mem' => ⟨mem', own⟩

namespace Assemble
variable {a : Analysis}

theorem isLocal_eq (id : SymbolId) : isLocal a id = (a.ownerOf id).isSome := by
  unfold isLocal Analysis.ownerOf
  cases a.symbols[id]? with
  | none => rfl
  | some s => rfl

theorem allocate_eq (id : SymbolId) (slot : Slot) (s : Assembly) :
    allocate id slot s =
      if s.draft.locals.size < Draft.slotLimit then
        .ok (.slot s.draft.locals.size, s.withSlot id slot)
      else .error (tooManyLocals s.draft.name) := by
  unfold allocate Draft.allocLocal
  by_cases room : s.draft.locals.size < Draft.slotLimit
  · simp only [if_pos room]
    rfl
  · simp only [if_neg room]
    rfl

theorem routineOf_known {id : SymbolId} {name : String} {s : Assembly}
    (known : s.places[id]? = some (.routine name)) : routineOf a id s = .ok (name, s) := by
  simp only [routineOf, modifyGet, MonadStateOf.modifyGet, StateT.modifyGet, known]
  rfl

theorem routineOf_new {id : SymbolId} {s : Assembly}
    (unnamed : ∀ name, s.places[id]? ≠ some (.routine name)) :
    routineOf a id s = .ok (s.routineName (nameOf a id), s.withRoutine id (nameOf a id)) := by
  cases found : s.places[id]? with
  | none =>
    simp only [routineOf, modifyGet, MonadStateOf.modifyGet, StateT.modifyGet, found]
    rfl
  | some place =>
    cases place with
    | slot | field =>
      simp only [routineOf, modifyGet, MonadStateOf.modifyGet, StateT.modifyGet, found]
      rfl
    | routine name => exact absurd found (unnamed name)

end Assemble

namespace Assembly
variable {a : Analysis} {here : Option SymbolId} {syms syms' syms'' xs ys : List SymbolId}
variable {s t u : Assembly}

/-- What the tables say does not depend on the routine under construction or on the finished ones. -/
theorem Tidy.redraft (tidy : s.Tidy a) (draft : Draft) (routines : Array Routine)
    (here : Option SymbolId) (targets : List Label) :
    Tidy a { s with draft, routines, here, targets } :=
  ⟨tidy.main, tidy.taken, tidy.routines, tidy.fields, tidy.listed, tidy.distinct, tidy.slots⟩

namespace Tidy

/-- A local variable that has no slot yet has no place at all. -/
theorem free_of_noSlot (tidy : s.Tidy a) {x m : SymbolId} (storable : a.Storable x)
    (own : a.ownerOf x = some m) (noSlot : ∀ n, s.places[x]? ≠ some (.slot n)) :
    s.places[x]? = none := by
  cases found : s.places[x]? with
  | none => rfl
  | some place =>
    cases place with
    | slot n => exact absurd found (noSlot n)
    | field f =>
      have isGlobal := (tidy.fields x f found).2.1
      simp [own] at isGlobal
    | routine n =>
      obtain ⟨sym, known, isMethod, -⟩ := (tidy.routines x n found).1
      obtain ⟨sym', -, known', notMethod, -⟩ := storable
      obtain rfl := Option.some.inj (known.symm.trans known')
      simp [isMethod] at notMethod

/-- What has a place and can be called has a routine. -/
theorem routine_of_callable (tidy : s.Tidy a) {x : SymbolId} (callable : a.Callable x)
    {place : Place} (found : s.places[x]? = some place) : ∃ n, place = .routine n := by
  obtain ⟨sym, known, isMethod, -⟩ := callable
  have noStorage : ¬ a.Storable x := by
    rintro ⟨sym', -, known', notMethod, -⟩
    obtain rfl := Option.some.inj (known.symm.trans known')
    simp [isMethod] at notMethod
  cases place with
  | slot n => exact absurd (tidy.slots x n found).1 noStorage
  | field f => exact absurd (tidy.fields x f found).1 noStorage
  | routine n => exact ⟨n, rfl⟩

end Tidy

namespace Seats

theorem refl (writing : s.Writing a here syms) : Seats a here syms syms xs s s where
  below := .refl _
  fresh x n free found := by simp [free] at found
  writing := writing
  grows := List.prefix_rfl
  only x mem := Or.inl mem
  heading := ⟨rfl, rfl, rfl⟩
  instrs := rfl
  routines := rfl

theorem trans (first : Seats a here syms syms' xs s t) (second : Seats a here syms' syms'' ys t u) :
    Seats a here syms syms'' (xs ++ ys) s u where
  below := first.below.trans second.below
  fresh x n free found := by
    cases between : t.places[x]? with
    | none => exact second.fresh x n between found
    | some place =>
      obtain rfl := Option.some.inj ((second.below x place between).symm.trans found)
      exact first.fresh x n free between
  writing := second.writing
  grows := first.grows.trans second.grows
  only x mem := by
    rw [List.mem_append]
    rcases second.only x mem with mem | mem
    · exact (first.only x mem).imp_right Or.inl
    · exact Or.inr (Or.inr mem)
  heading := ⟨second.heading.1.trans first.heading.1, second.heading.2.1.trans first.heading.2.1,
    second.heading.2.2.trans first.heading.2.2⟩
  instrs := second.instrs.trans first.instrs
  routines := second.routines.trans first.routines

end Seats

namespace Writing

/-- The number of slots in use. -/
theorem length (writing : s.Writing a here syms) : syms.length = s.draft.locals.size := by
  simpa using writing.typed.length_eq

/-- A local takes the next slot. -/
theorem withSlot (writing : s.Writing a here syms) {id m : SymbolId} {slot : Slot}
    (free : s.places[id]? = none) (storable : a.Storable id) (inside : here = some m)
    (own : a.ownerOf id = some m) (ok : Assemble.slotOf a id = .ok slot)
    (room : s.draft.locals.size < Draft.slotLimit) :
    Seats a here syms (syms ++ [id]) [id] s (s.withSlot id slot) where
  below := Places.below_insert free _
  fresh x n free' found := by
    simp only [Assembly.withSlot, Places.getElem?_insert] at found
    split at found
    · rename_i same
      exact Or.inl (same ▸ own.trans inside.symm)
    · simp [free'] at found
  writing :=
    { tidy := writing.tidy.withSlot free storable (by simp [own]) slot
      plain := writing.plain
      slots := by
        have next := writing.slots.snoc free inside own
        rwa [writing.length] at next
      typed := by
        simp only [Assembly.withSlot, Array.toList_push]
        exact List.rel_append writing.typed (.cons ok .nil)
      bounded := by
        simp only [Assembly.withSlot, Array.size_push]
        omega }
  grows := List.prefix_append _ _
  only x mem := List.mem_append.mp mem
  heading := ⟨rfl, rfl, rfl⟩
  instrs := rfl
  routines := rfl

/-- A state with other places, in which no local of the method got a slot. -/
theorem replace (writing : s.Writing a here syms) (tidy : t.Tidy a) (draft : t.draft = s.draft)
    (routines : t.routines = s.routines) (below : Places.Below s.places t.places)
    (noSlot : ∀ (x : SymbolId) (n : Nat), s.places[x]? = none → t.places[x]? ≠ some (.slot n)) :
    Seats a here syms syms xs s t where
  below := below
  fresh x n free found := absurd found (noSlot x n free)
  writing :=
    { tidy := tidy
      plain := draft ▸ writing.plain
      slots := writing.slots.mono below fun x _ n free found => absurd found (noSlot x n free)
      typed := draft ▸ writing.typed
      bounded := draft ▸ writing.bounded }
  grows := List.prefix_rfl
  only x mem := Or.inl mem
  heading := by simp [draft]
  instrs := by rw [draft]
  routines := routines

/-- A global gets a field. -/
theorem withField (writing : s.Writing a here syms) {id : SymbolId} {slot : Slot}
    (free : s.places[id]? = none) (storable : a.Storable id) (isGlobal : a.ownerOf id = none)
    (ok : Assemble.slotOf a id = .ok slot) (name : String) :
    Seats a here syms syms xs s (s.withField name id slot) := by
  refine writing.replace (writing.tidy.withField free storable isGlobal name ok) rfl rfl
    (Places.below_insert free _) fun x n free' found => ?_
  have apart : Place.field (numbered name s.counter) ≠ .slot n := by simp
  have before := (Places.getElem?_insert_of_ne free apart x).mp found
  simp [free'] at before

/-- Without room for one more local there are more locals than slots. -/
theorem overflows (writing : s.Writing a here syms) {id m : SymbolId}
    (free : s.places[id]? = none) (own : a.ownerOf id = some m)
    (full : ¬ s.draft.locals.size < Draft.slotLimit) : Overflows a m syms [id] := by
  refine ⟨syms ++ [id], ?_, ?_, ?_⟩
  · refine List.nodup_append.mpr ⟨writing.slots.nodup, by simp, ?_⟩
    rintro x mem y mem' rfl
    obtain rfl := List.mem_singleton.mp mem'
    obtain ⟨n, found⟩ := List.mem_iff_getElem?.mp mem
    simp [((writing.slots n x).mp found).1] at free
  · rw [List.length_append, writing.length, List.length_singleton]
    omega
  · intro x mem
    rcases List.mem_append.mp mem with mem | mem
    · exact Or.inl mem
    · exact Or.inr ⟨mem, by rw [List.mem_singleton.mp mem, own]⟩

end Writing

end Assembly

namespace Assemble
variable {a : Analysis} {here : Option SymbolId} {syms syms' : List SymbolId} {s t : Assembly}

theorem placeOf_known {id : SymbolId} {slot : Slot} {place : Place} (ok : slotOf a id = .ok slot)
    (found : s.places[id]? = some place) : placeOf a id s = .ok ((place, slot), s) := by
  simp only [placeOf, ok, found, bind, StateT.bind, liftM, monadLift, MonadLift.monadLift,
    StateT.lift, get, getThe, MonadStateOf.get, StateT.get, pure, Except.bind, Except.pure]
  rfl

theorem placeOf_new {id : SymbolId} {slot : Slot} (ok : slotOf a id = .ok slot)
    (free : s.places[id]? = none) : placeOf a id s =
      (if isLocal a id then allocate id slot else newField (nameOf a id) id slot) s >>=
        fun p => .ok ((p.1, slot), p.2) := by
  simp only [placeOf, ok, free, bind, StateT.bind, liftM, monadLift, MonadLift.monadLift,
    StateT.lift, get, getThe, MonadStateOf.get, StateT.get, pure, Except.bind, Except.pure]
  cases isLocal a id <;> rfl

theorem placeOf_yields (writing : s.Writing a here syms) {id : SymbolId} (storable : a.Storable id)
    (inScope : a.ownerOf id = none ∨ a.ownerOf id = here) :
    Yields (placeOf a id) s
      (fun v t => ∃ syms', Assembly.Seats a here syms syms' [id] s t ∧
        t.places[id]? = some v.1 ∧ slotOf a id = .ok v.2)
      (fun e => ∃ m, here = some m ∧ Overflows a m syms [id] ∧ e = tooManyLocals s.draft.name) := by
  obtain ⟨slot, ok⟩ : ∃ slot, slotOf a id = .ok slot := by
    obtain ⟨-, slot, -, -, ok⟩ := storable
    exact ⟨slot, ok⟩
  cases found : s.places[id]? with
  | some place => exact .of_ok (placeOf_known ok found) ⟨syms, .refl writing, found, ok⟩
  | none =>
    have opened := placeOf_new ok found
    cases own : a.ownerOf id with
    | none =>
      rw [isLocal_eq, own] at opened
      exact .of_ok opened ⟨syms, writing.withField found storable own ok _,
        by simp, ok⟩
    | some m =>
      have inside := Analysis.here_of_ownerOf inScope own
      simp only [isLocal_eq, own, Option.isSome_some, if_true, allocate_eq] at opened
      by_cases room : s.draft.locals.size < Draft.slotLimit
      · rw [if_pos room] at opened
        exact .of_ok opened ⟨_, writing.withSlot found storable inside own ok room,
          by simp [Assembly.withSlot], ok⟩
      · rw [if_neg room] at opened
        exact .of_error opened ⟨m, inside, writing.overflows found own room, rfl⟩

/-- The routine of a method, known or new. No symbol gets a slot. -/
theorem routineOf_ok (tidy : s.Tidy a) {id : SymbolId} (callable : a.Callable id) :
    ∃ name t, routineOf a id s = .ok (name, t) ∧ t.places[id]? = some (.routine name) ∧
      t.Tidy a ∧ t.draft = s.draft ∧ t.routines = s.routines ∧ Places.Below s.places t.places ∧
      ∀ (x : SymbolId) (n : Nat), s.places[x]? = none → t.places[x]? ≠ some (.slot n) := by
  cases found : s.places[id]? with
  | none =>
    refine ⟨_, _, routineOf_new (by simp [found]), by simp [Assembly.withRoutine,
      Assembly.routineName], tidy.withRoutine found callable, rfl, rfl,
      Places.below_insert found _, fun x n free found' => ?_⟩
    have apart : Place.routine (s.routineName (nameOf a id)) ≠ .slot n := by simp
    have before := (Places.getElem?_insert_of_ne found apart x).mp found'
    simp [free] at before
  | some place =>
    obtain ⟨name, rfl⟩ := tidy.routine_of_callable callable found
    exact ⟨name, s, routineOf_known found, found, tidy, rfl, rfl, .refl _, by simp +contextual⟩

/-- After its symbols have their places, an item becomes one instruction. -/
theorem emit_assembles {op : Op} {i : Instr}
    (seats : Assembly.Seats a here syms syms' (Op.touched [op]) s t)
    (size : op.size = 1) (bodies : op.bodies = [])
    (placed : ∀ (x : SymbolId), x ∈ Op.touched [op] → ∃ place, t.places[x]? = some place)
    (becomes : op.Becomes a t.places s.draft.instrs.length i) :
    Assembles a here syms syms' [op] s { t with draft := t.draft.emit i } where
  below := seats.below
  fresh x n free found := by
    rcases seats.fresh x n free found with own | ⟨m, mem, -⟩
    · exact Or.inl own
    · simp at mem
  writing := ⟨seats.writing.tidy.redraft _ _ _ _, seats.writing.plain, seats.writing.slots,
    seats.writing.typed, seats.writing.bounded⟩
  grows := seats.grows
  only := seats.only
  heading := seats.heading
  written := by
    rw [Draft.emit_instrs, seats.instrs]
    exact List.prefix_append _ _
  size := by
    rw [Draft.emit_instrs, seats.instrs]
    simp [size]
  placed x mem := by
    obtain ⟨place, found⟩ := placed x mem
    simp [found]
  code places code below written := by
    refine ⟨fun _ => ⟨i, ?_, becomes.mono below⟩, trivial⟩
    rw [Draft.emit_instrs, seats.instrs] at written
    obtain ⟨rest, whole⟩ := written
    simp [← Array.getElem?_toList, ← whole]
  routines := ⟨[], by simp [seats.routines], by simp [Op.bodiesAll, bodies]⟩

/-- Each parameter takes a slot. -/
theorem allocateAll_yields {id : SymbolId} {qs : List SymbolId} {slots : List Slot}
    (slotted : SlotsOf a qs slots) :
    ∀ {syms : List SymbolId} {s : Assembly}, s.Writing a (some id) syms →
    (∀ q ∈ qs, a.Storable q ∧ a.ownerOf q = some id) → qs.Nodup →
    (∀ (q : SymbolId), q ∈ qs → s.places[q]? = none) →
    Yields ((qs.zip slots).forM fun (id, slot) => discard (allocate id slot)) s
      (fun _ t => Assembly.Seats a (some id) syms (syms ++ qs) qs s t)
      (fun e => Overflows a id (syms ++ qs) [] ∧ e = tooManyLocals s.draft.name) := by
  induction slotted with
  | nil =>
    intro syms s writing _ _ _
    refine .of_ok (v := ()) rfl ?_
    rw [List.append_nil]
    exact .refl writing
  | @cons q slot qs slots ok _ ih =>
    intro syms s writing owned nodup free
    obtain ⟨storable, own⟩ := owned q List.mem_cons_self
    have unplaced := free q List.mem_cons_self
    show Yields (discard (allocate q slot) >>= fun _ =>
      (qs.zip slots).forM fun (id, slot) => discard (allocate id slot)) s _ _
    by_cases room : s.draft.locals.size < Draft.slotLimit
    · have seats := writing.withSlot unplaced storable rfl own ok room
      have first : Yields (discard (allocate q slot)) s (fun _ t => t = s.withSlot q slot)
          fun _ => False := by
        refine .of_ok (v := ()) ?_ rfl
        show (allocate q slot s >>= fun p => .ok ((), p.2)) = _
        rw [allocate_eq, if_pos room]
        rfl
      refine first.bind (fun _ no => no.elim) ?_
      rintro - t rfl
      have later := ih seats.writing (fun q' mem => owned q' (List.mem_cons_of_mem _ mem))
        (List.nodup_cons.mp nodup).2 (fun q' mem => by
          simp only [Assembly.withSlot, Places.getElem?_insert]
          rw [if_neg]
          · exact free q' (List.mem_cons_of_mem _ mem)
          · rintro rfl
            exact (List.nodup_cons.mp nodup).1 mem)
      rw [List.append_assoc, List.singleton_append] at later
      refine later.imp (fun _ u second => seats.trans second) fun e bad => ?_
      exact ⟨bad.1, bad.2.trans (by rw [seats.heading.1])⟩
    · refine .of_error (e := tooManyLocals s.draft.name) ?_ ⟨?_, rfl⟩
      · have first : discard (allocate q slot) s = .error (tooManyLocals s.draft.name) := by
          show (allocate q slot s >>= fun p => .ok ((), p.2)) = _
          rw [allocate_eq, if_neg room]
          rfl
        show (discard (allocate q slot) s).bind _ = _
        rw [first]
        rfl
      · refine (writing.overflows unplaced own room).mono ?_ ?_
        · exact fun x mem => Or.inl (List.mem_append_left _ mem)
        · exact fun x mem => Or.inl (by simp [List.mem_singleton.mp mem])

/-- The routine of a method right after it was opened. -/
structure Opened (a : Analysis) (id : SymbolId) (s t : Assembly) : Prop where
  below : Places.Below s.places t.places
  fresh : ∀ (x : SymbolId) (n : Nat), s.places[x]? = none → t.places[x]? = some (.slot n) →
    a.ownerOf x = some id
  writing : t.Writing a (some id) (a.params id)
  name : t.places[id]? = some (.routine t.draft.name)
  params : SlotsOf a (a.params id) t.draft.params.toList
  result : resultOf a id = .ok t.draft.result
  instrs : t.draft.instrs = []
  routines : t.routines = s.routines

theorem openRoutine_yields (tidy : s.Tidy a) {id : SymbolId} (opens : a.Opens id)
    (unopened : ∀ (x : SymbolId) (n : Nat), a.ownerOf x = some id →
      s.places[x]? ≠ some (.slot n)) :
    Yields (openRoutine a id) s (fun _ t => Opened a id s t)
      (fun e => ∃ n, NamedAfter a id n ∧ Overflows a id (a.params id) [] ∧
        e = tooManyLocals n) := by
  obtain ⟨name, t, named, known, tidy', sameDraft, sameRoutines, below, noSlot⟩ :=
    routineOf_ok tidy opens.callable
  obtain ⟨result, resultOk⟩ := opens.result
  obtain ⟨slots, slotsOk⟩ : ∃ slots, (a.params id).mapM (slotOf a) = .ok slots := by
    refine except_mapM_isOk fun q mem => ?_
    obtain ⟨-, slot, -, -, ok⟩ := (opens.params q mem).1
    exact ⟨slot, ok⟩
  have slotted : SlotsOf a (a.params id) slots := except_mapM_ok slotsOk
  have unopened' : ∀ (x : SymbolId) (n : Nat), a.ownerOf x = some id →
      t.places[x]? ≠ some (.slot n) := by
    intro x n own found
    cases before : s.places[x]? with
    | none => exact noSlot x n before found
    | some place =>
      obtain rfl := Option.some.inj ((below x place before).symm.trans found)
      exact unopened x n own before
  have writing : Assembly.Writing a (some id) []
      { t with draft := .start name slots.toArray result, here := some id, targets := [] } :=
    { tidy := tidy'.redraft _ _ _ _
      plain := rfl
      slots := by
        intro n x
        refine iff_of_false (by simp) ?_
        rintro ⟨found, m, same, own⟩
        obtain rfl := Option.some.inj same
        exact unopened' x n own found
      typed := .nil
      bounded := by simp [Draft.start] }
  have run := allocateAll_yields slotted writing opens.params opens.distinct fun q mem =>
    tidy'.free_of_noSlot (opens.params q mem).1 (opens.params q mem).2
      fun n => unopened' q n (opens.params q mem).2
  rw [List.nil_append] at run
  refine .bind_ok named (.bind_ok (state_lift_ok.mpr ⟨resultOk, rfl⟩)
    (.bind_ok (state_lift_ok.mpr ⟨slotsOk, rfl⟩) (.bind_ok rfl ?_)))
  refine run.imp (fun _ u seats => ?_) fun e bad => ?_
  · exact
      { below := below.trans seats.below
        fresh := by
          intro x n free found
          cases before : t.places[x]? with
          | none =>
            rcases seats.fresh x n before found with own | ⟨m, mem, -⟩
            · exact own
            · simp at mem
          | some place =>
            obtain rfl := Option.some.inj ((seats.below x place before).symm.trans found)
            exact absurd before (noSlot x n free)
        writing := seats.writing
        name := by rw [seats.heading.1]; exact seats.below _ _ known
        params := by rw [seats.heading.2.1]; exact slotted
        result := by rw [seats.heading.2.2]; exact resultOk
        instrs := seats.instrs
        routines := seats.routines.trans sameRoutines }
  · exact ⟨name, (tidy'.routines id name known).2.2.2.1, bad⟩

/-- A body that was assembled in a routine of its own is laid out there. -/
theorem Opened.laid {id : SymbolId} {body : List Op} {u : Assembly} (opened : Opened a id s t)
    (inner : Assembles a (some id) (a.params id) syms' body t u) :
    Laid a u.places (id, body) u.draft.toRoutine where
  name := by
    rw [Draft.toRoutine, inner.heading.1]
    exact inner.below _ _ opened.name
  params := by
    rw [Draft.toRoutine, inner.heading.2.1]
    exact opened.params
  result := by
    rw [Draft.toRoutine, inner.heading.2.2]
    exact opened.result
  locals := ⟨syms', inner.writing.slots, inner.writing.typed, inner.grows, inner.only,
    inner.writing.bounded⟩
  placed := inner.placed
  code := (inner.code_toRoutine opened.instrs).1
  size := (inner.code_toRoutine opened.instrs).2

/-- Only locals of the method, and of the methods inside it, get slots. -/
theorem Opened.fresh_inner {id : SymbolId} {body : List Op} {u : Assembly}
    (opened : Opened a id s t) (inner : Assembles a (some id) (a.params id) syms' body t u)
    {x : SymbolId} {n : Nat} (free : s.places[x]? = none) (found : u.places[x]? = some (.slot n)) :
    ∃ m ∈ (Op.bodiesAll [.method id body]).map Prod.fst, a.ownerOf x = some m := by
  simp only [Op.bodiesAll, Op.bodies, List.append_nil, List.map_append, List.map_singleton]
  cases between : t.places[x]? with
  | none =>
    rcases inner.fresh x n between found with own | ⟨m, mem, own⟩
    · exact ⟨id, by simp, own⟩
    · exact ⟨m, List.mem_append_left _ mem, own⟩
  | some place =>
    obtain rfl := Option.some.inj ((inner.below x place between).symm.trans found)
    exact ⟨id, by simp, opened.fresh x n free between⟩

/-- A routine that can be finished is added to the others. -/
theorem closeRoutine_finish (outer : Assembly) {u : Assembly} {r : Routine}
    (finished : u.draft.finish = .ok r) :
    closeRoutine outer u = .ok ((), { u with
      routines := u.routines.push r
      draft := outer.draft
      here := outer.here
      targets := outer.targets }) :=
  state_bind_ok.mpr ⟨u, u, rfl, state_bind_ok.mpr
    ⟨r, u, state_lift_ok.mpr ⟨finished, rfl⟩, rfl⟩⟩

/-- A finished body becomes a routine of its own, and the routine around it goes on as it was. -/
theorem method_assembles {id : SymbolId} {body : List Op} {u : Assembly}
    (writing : s.Writing a here syms)
    (apart : here ≠ some id ∧ ∀ b ∈ Op.bodiesAll body, here ≠ some b.1)
    (opened : Opened a id s t) (inner : Assembles a (some id) (a.params id) syms' body t u) :
    ∃ v, closeRoutine s u = .ok ((), v) ∧
      Assembles a here syms syms [.method id body] s v := by
  refine ⟨_, closeRoutine_finish s inner.writing.plain.finish, ?_⟩
  exact
    { below := opened.below.trans inner.below
      fresh := fun x n free found => Or.inr (opened.fresh_inner inner free found)
      writing :=
        { tidy := inner.writing.tidy.redraft _ _ _ _
          plain := writing.plain
          slots := by
            refine writing.slots.mono (opened.below.trans inner.below) ?_
            intro x m n free found inside own
            obtain ⟨m', mem, own'⟩ := opened.fresh_inner inner free found
            obtain rfl := Option.some.inj (own.symm.trans own')
            obtain ⟨b, listed, rfl⟩ := List.mem_map.mp mem
            simp only [Op.bodiesAll, Op.bodies, List.append_nil, List.mem_append,
              List.mem_singleton] at listed
            rcases listed with listed | rfl
            · exact apart.2 b listed inside
            · exact apart.1 inside
          typed := writing.typed
          bounded := writing.bounded }
      grows := List.prefix_rfl
      only := fun x mem => Or.inl mem
      heading := ⟨rfl, rfl, rfl⟩
      written := List.prefix_rfl
      size := rfl
      placed := by simp [Op.touched]
      code := fun places code _ _ => ⟨by simp [Op.size], trivial⟩
      routines := by
        obtain ⟨rs, eq, all⟩ := inner.routines
        refine ⟨rs ++ [u.draft.toRoutine], ?_, ?_⟩
        · simp [eq, opened.routines]
        · simp only [Op.bodiesAll, Op.bodies, List.append_nil]
          exact List.rel_append all (.cons (opened.laid inner) .nil) }

/-- Code that can be laid out now: it is in scope, every method in it is declared once, and none of
them has been opened. -/
structure Layable (a : Analysis) (here : Option SymbolId) (ops : List Op) (s : Assembly) :
    Prop where
  inScope : Op.ScopedAll a here ops
  distinct : ((Op.bodiesAll ops).map Prod.fst).Nodup
  outside : ∀ b ∈ Op.bodiesAll ops, here ≠ some b.1
  unopened : ∀ b ∈ Op.bodiesAll ops, ∀ (x : SymbolId) (n : Nat), a.ownerOf x = some b.1 →
    s.places[x]? ≠ some (.slot n)

namespace Layable
variable {op : Op} {ops : List Op}

theorem first (h : Layable a here (op :: ops) s) : Layable a here [op] s where
  inScope := ⟨h.inScope.1, trivial⟩
  distinct := by
    have := h.distinct
    rw [Op.bodiesAll, List.map_append] at this
    simpa [Op.bodiesAll] using (List.nodup_append.mp this).1
  outside b mem := h.outside b (by simp_all [Op.bodiesAll])
  unopened b mem := h.unopened b (by simp_all [Op.bodiesAll])

/-- The methods of two pieces of code are different ones. -/
theorem apart (h : Layable a here (op :: ops) s) :
    ∀ b ∈ Op.bodiesAll [op], here ≠ some b.1 ∧ ∀ b' ∈ Op.bodiesAll ops, b'.1 ≠ b.1 := by
  intro b mem
  have inside : b ∈ op.bodies := by simpa [Op.bodiesAll] using mem
  refine ⟨h.outside b (by simp [Op.bodiesAll, inside]), fun b' mem' same => ?_⟩
  have := h.distinct
  rw [Op.bodiesAll, List.map_append] at this
  exact (List.nodup_append.mp this).2.2 b.1 (List.mem_map_of_mem inside) b'.1
    (List.mem_map_of_mem mem') same.symm

theorem later (h : Layable a here (op :: ops) s)
    (done : Assembles a here syms syms' [op] s t) : Layable a here ops t where
  inScope := h.inScope.2
  distinct := by
    have := h.distinct
    rw [Op.bodiesAll, List.map_append] at this
    exact (List.nodup_append.mp this).2.1
  outside b mem := h.outside b (by simp [Op.bodiesAll, mem])
  unopened b mem x n own found := by
    cases before : s.places[x]? with
    | none =>
      rcases done.fresh x n before found with same | ⟨m, mem', same⟩
      · exact h.outside b (by simp [Op.bodiesAll, mem]) (same.symm.trans own)
      · obtain ⟨b', inside, rfl⟩ := List.mem_map.mp mem'
        exact (h.apart b' inside).2 b mem (Option.some.inj (own.symm.trans same))
    | some place =>
      obtain rfl := Option.some.inj ((done.below x place before).symm.trans found)
      exact h.unopened b (by simp [Op.bodiesAll, mem]) x n own before

/-- The body of a method, once its routine is open. -/
theorem body {id : SymbolId} {body : List Op} (h : Layable a here [.method id body] s)
    (opened : Opened a id s t) :
    Layable a (some id) body t where
  inScope := h.inScope.1.2
  distinct := by
    have := h.distinct
    simp only [Op.bodiesAll, Op.bodies, List.append_nil, List.map_append] at this
    exact (List.nodup_append.mp this).1
  outside b mem same := by
    have := h.distinct
    simp only [Op.bodiesAll, Op.bodies, List.append_nil, List.map_append] at this
    exact (List.nodup_append.mp this).2.2 b.1 (List.mem_map_of_mem mem) id (by simp)
      (Option.some.inj same).symm
  unopened b mem x n own found := by
    cases before : s.places[x]? with
    | none =>
      have own' := opened.fresh x n before found
      have := h.distinct
      simp only [Op.bodiesAll, Op.bodies, List.append_nil, List.map_append] at this
      exact (List.nodup_append.mp this).2.2 b.1 (List.mem_map_of_mem mem) id (by simp)
        (Option.some.inj (own.symm.trans own'))
    | some place =>
      obtain rfl := Option.some.inj ((opened.below x place before).symm.trans found)
      exact h.unopened b (by simp [Op.bodiesAll, Op.bodies, mem]) x n own before

end Layable

/-- A failure of the first item is one of the whole code. -/
theorem Fails.first {op : Op} {ops : List Op} {name : String} {e : Error}
    (h : Fails a here syms name [op] e) : Fails a here syms name (op :: ops) e := by
  rcases h with ⟨m, inside, excess, rfl⟩ | ⟨b, mem, bad⟩
  · refine Or.inl ⟨m, inside, excess.mono (fun x mem => Or.inl mem) fun x mem => Or.inr ?_, rfl⟩
    rw [← List.singleton_append, Op.touched_append]
    exact List.mem_append_left _ mem
  · exact Or.inr ⟨b, by simp_all [Op.bodiesAll], bad⟩

/-- A failure after the first item is one of the whole code. -/
theorem Fails.later {op : Op} {ops : List Op} {e : Error}
    (done : Assembles a here syms syms' [op] s t)
    (h : Fails a here syms' t.draft.name ops e) :
    Fails a here syms s.draft.name (op :: ops) e := by
  rw [done.heading.1] at h
  rcases h with ⟨m, inside, excess, rfl⟩ | ⟨b, mem, bad⟩
  · refine Or.inl ⟨m, inside, ?_, rfl⟩
    rw [← List.singleton_append, Op.touched_append]
    refine excess.mono (fun x mem => ?_) fun x mem => Or.inr (List.mem_append_right _ mem)
    obtain ⟨m', inside', own⟩ := done.writing.slots.owner mem
    obtain rfl := Option.some.inj (inside.symm.trans inside')
    exact (done.only x mem).imp_right fun mem' => ⟨List.mem_append_left _ mem', own⟩
  · exact Or.inr ⟨b, by simp [Op.bodiesAll, mem], bad⟩

mutual

theorem op_yields {here : Option SymbolId} {syms : List SymbolId} {s : Assembly}
    (writing : s.Writing a here syms) : (o : Op) → Layable a here [o] s →
    Yields (op a o) s (fun _ t => ∃ syms', Assembles a here syms syms' [o] s t)
      (Fails a here syms s.draft.name [o])
  | .instr i, _ =>
    .of_ok rfl ⟨syms, emit_assembles (.refl writing) rfl rfl (by simp [Op.touched]) rfl⟩
  | .jump j distance, _ => by
    refine .of_ok rfl ⟨syms, emit_assembles (.refl writing) rfl rfl (by simp [Op.touched]) ?_⟩
    show _ = _
    rw [s.draft.size_code]
  | .load id, layable => by
    rw [op]
    refine (placeOf_yields writing layable.inScope.1.1 layable.inScope.1.2).bind ?_ ?_
    · rintro e bad
      exact Or.inl bad
    · rintro ⟨place, slot⟩ t ⟨syms', seats, placed, ok⟩
      exact .of_ok rfl ⟨syms', emit_assembles seats rfl rfl (by simp [Op.touched, placed])
        ⟨place, slot, placed, ok, rfl⟩⟩
  | .store id, layable => by
    rw [op]
    refine (placeOf_yields writing layable.inScope.1.1 layable.inScope.1.2).bind ?_ ?_
    · rintro e bad
      exact Or.inl bad
    · rintro ⟨place, slot⟩ t ⟨syms', seats, placed, ok⟩
      exact .of_ok rfl ⟨syms', emit_assembles seats rfl rfl (by simp [Op.touched, placed])
        ⟨place, slot, placed, ok, rfl⟩⟩
  | .invoke id, layable => by
    obtain ⟨name, t, eq, known, tidy, draft, routines, below, noSlot⟩ :=
      routineOf_ok writing.tidy layable.inScope.1
    rw [op]
    exact .bind_ok eq (.of_ok rfl ⟨syms,
      emit_assembles (writing.replace tidy draft routines below noSlot) rfl rfl
        (by simp [Op.touched])
        ⟨name, known, rfl⟩⟩)
  | .fault e, layable => absurd layable.inScope.1 (by simp [Op.Scoped])
  | .method id body, layable => by
    rw [op]
    have only : (id, body) ∈ Op.bodiesAll [.method id body] := by simp [Op.bodiesAll, Op.bodies]
    have inner : ∀ b ∈ Op.bodiesAll body, b ∈ Op.bodiesAll [.method id body] := by
      intro b mem
      simp [Op.bodiesAll, Op.bodies, mem]
    refine .bind_ok rfl ?_
    refine (openRoutine_yields writing.tidy layable.inScope.1.1 (layable.unopened _ only)).bind
      ?_ fun _ t opened => ?_
    · rintro e ⟨n, named, excess, rfl⟩
      exact Or.inr ⟨_, only, excess.mono (fun x mem => Or.inl mem) (by simp), n, named, rfl⟩
    refine (ops_yields opened.writing body (layable.body opened)).bind ?_ ?_
    · rintro e (⟨m, inside, excess, rfl⟩ | ⟨b, mem, bad⟩)
      · obtain rfl := Option.some.inj inside
        exact Or.inr ⟨_, only, excess, _,
          (opened.writing.tidy.routines _ _ opened.name).2.2.2.1, rfl⟩
      · exact Or.inr ⟨b, inner b mem, bad⟩
    · rintro - u ⟨syms', done⟩
      obtain ⟨v, eq, all⟩ := method_assembles writing
        ⟨layable.outside _ only, fun b mem => layable.outside b (inner b mem)⟩ opened done
      exact .of_ok eq ⟨syms, all⟩

theorem ops_yields {here : Option SymbolId} {syms : List SymbolId} {s : Assembly}
    (writing : s.Writing a here syms) : (os : List Op) → Layable a here os s →
    Yields (ops a os) s (fun _ t => ∃ syms', Assembles a here syms syms' os s t)
      (Fails a here syms s.draft.name os)
  | [], _ => .of_ok rfl ⟨syms, .nil writing⟩
  | o :: os, layable => by
    rw [ops]
    refine (op_yields writing o layable.first).bind (fun e bad => Fails.first bad) ?_
    rintro - t ⟨syms', done⟩
    refine (ops_yields done.writing os (layable.later done)).imp ?_ ?_
    · rintro - u ⟨syms'', done'⟩
      exact ⟨syms'', done.append done' layable.apart⟩
    · exact fun e bad => Fails.later done bad

end

end Assemble

end Guarded

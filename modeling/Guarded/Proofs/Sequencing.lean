import Guarded.Error
import Mathlib.Data.List.Forall2

/-!
Runs of sequences. A sequence of steps succeeds exactly if each step succeeds on the state the one
before it left, so what is known of the steps can be put together. The passes over a program use
three kinds of steps: with a state that outlives an error, with one that does not, and without any.
-/

namespace Guarded

universe u

section Lasting
variable {ε σ α β : Type u} {x : EStateM ε σ α} {f : α → EStateM ε σ β} {s s' : σ}

theorem lasting_bind_ok {b : β} :
    (x >>= f) s = .ok b s' ↔ ∃ a t, x s = .ok a t ∧ f a t = .ok b s' := by
  change (EStateM.bind x f) s = .ok b s' ↔ _
  unfold EStateM.bind
  cases h : x s with
  | ok a t => simp [and_assoc]
  | error e t => simp

/-- A sequence fails in its first part, or in the second after the first has succeeded. -/
theorem lasting_bind_error {e : ε} :
    (x >>= f) s = .error e s' ↔
      x s = .error e s' ∨ ∃ a t, x s = .ok a t ∧ f a t = .error e s' := by
  change (EStateM.bind x f) s = .error e s' ↔ _
  unfold EStateM.bind
  cases h : x s with
  | ok a t => simp [and_assoc]
  | error e t => simp

theorem lasting_pure_ok {a b : α} : (pure a : EStateM ε σ α) s = .ok b s' ↔ a = b ∧ s = s' := by
  change EStateM.Result.ok a s = .ok b s' ↔ _
  simp

theorem lasting_throw_ok {e : ε} {b : α} : ¬ (throw e : EStateM ε σ α) s = .ok b s' := by
  change ¬ EStateM.Result.error e s = .ok b s'
  simp

theorem lasting_modify_ok {g : σ → σ} {u : PUnit} :
    (modify g : EStateM ε σ PUnit) s = .ok u s' ↔ PUnit.unit = u ∧ g s = s' := by
  change EStateM.Result.ok PUnit.unit (g s) = .ok u s' ↔ _
  simp

theorem lasting_modifyGet_ok {g : σ → α × σ} {b : α} :
    (modifyGet g : EStateM ε σ α) s = .ok b s' ↔ (g s).1 = b ∧ (g s).2 = s' := by
  change EStateM.Result.ok (g s).1 (g s).2 = .ok b s' ↔ _
  simp

theorem lasting_discard_ok {u : PUnit} :
    (discard x) s = .ok u s' ↔ ∃ a, x s = .ok a s' := by
  change (EStateM.map (fun _ => PUnit.unit) x) s = .ok u s' ↔ _
  unfold EStateM.map
  cases h : x s with
  | ok a t => simp
  | error e t => simp

end Lasting

section Plain
variable {ε : Type} {σ α β : Type} {x : StateT σ (Except ε) α} {f : α → StateT σ (Except ε) β}
variable {s s' : σ}

theorem except_bind_ok {y : Except ε α} {g : α → Except ε β} {b : β} :
    (y >>= g) = .ok b ↔ ∃ a, y = .ok a ∧ g a = .ok b := by
  change (Except.bind y g) = .ok b ↔ _
  cases y with
  | ok a => simp [Except.bind]
  | error e => simp [Except.bind]

theorem except_mapM_ok {g : α → Except ε β} : {xs : List α} → {ys : List β} →
    xs.mapM g = .ok ys → List.Forall₂ (fun x y => g x = .ok y) xs ys
  | [], ys, h => by
    obtain rfl : [] = ys := by simpa [pure, Except.pure] using h
    exact .nil
  | x :: xs, ys, h => by
    rw [List.mapM_cons] at h
    obtain ⟨y, first, rest⟩ := except_bind_ok.mp h
    obtain ⟨zs, more, done⟩ := except_bind_ok.mp rest
    obtain rfl : y :: zs = ys := by simpa [pure, Except.pure] using done
    exact .cons first (except_mapM_ok more)

theorem except_of_isOk {x : Except ε α} (h : x.isOk = true) : ∃ a, x = .ok a := by
  cases x with
  | error e => cases h
  | ok a => exact ⟨a, rfl⟩

theorem except_of_toOption {x : Except ε α} {a : α} (h : x.toOption = some a) : x = .ok a := by
  cases x with
  | error e => cases h
  | ok b => exact congrArg Except.ok (Option.some.inj h)

theorem except_of_elim {x : Option α} {e : ε} {a : α}
    (h : x.elim (.error e) Except.ok = .ok a) : x = some a := by
  cases x with
  | none => cases h
  | some b => exact congrArg some (Except.ok.inj h)

theorem except_mapM_isOk {g : α → Except ε β} : {xs : List α} →
    (∀ x ∈ xs, ∃ y, g x = .ok y) → ∃ ys, xs.mapM g = .ok ys
  | [], _ => ⟨[], rfl⟩
  | x :: xs, h => by
    obtain ⟨y, first⟩ := h x List.mem_cons_self
    obtain ⟨ys, rest⟩ := except_mapM_isOk fun z mem => h z (List.mem_cons_of_mem _ mem)
    exact ⟨y :: ys, by rw [List.mapM_cons, first, rest]; rfl⟩

/-- A list fails at the first of its elements that does. -/
theorem except_mapM_error {g : α → Except ε β} {e : ε} : {xs : List α} → xs.mapM g = .error e →
    ∃ before x after, xs = before ++ x :: after ∧ (∀ y ∈ before, ∃ z, g y = .ok z) ∧
      g x = .error e
  | [], h => by simp [pure, Except.pure] at h
  | x :: xs, h => by
    rw [List.mapM_cons] at h
    cases first : g x with
    | error e' =>
      obtain rfl : e' = e := by simpa [first, bind, Except.bind] using h
      exact ⟨[], x, xs, rfl, by simp, first⟩
    | ok y =>
      cases rest : xs.mapM g with
      | ok ys => simp [first, rest, bind, Except.bind, pure, Except.pure] at h
      | error e' =>
        obtain rfl : e' = e := by simpa [first, rest, bind, Except.bind] using h
        obtain ⟨before, z, after, rfl, fine, bad⟩ := except_mapM_error rest
        exact ⟨x :: before, z, after, rfl, List.forall_mem_cons.mpr ⟨⟨y, first⟩, fine⟩, bad⟩

theorem except_mapM_array_ok {g : α → Except ε β} {xs : Array α} {ys : Array β}
    (h : xs.mapM g = .ok ys) : List.Forall₂ (fun x y => g x = .ok y) xs.toList ys.toList := by
  rw [Array.mapM_eq_mapM_toList] at h
  cases run : xs.toList.mapM g with
  | error e => simp [run, Functor.map, Except.map] at h
  | ok zs =>
    obtain rfl : zs.toArray = ys := by simpa [run, Functor.map, Except.map] using h
    exact except_mapM_ok run

theorem state_bind_ok {b : β} :
    (x >>= f) s = .ok (b, s') ↔ ∃ a t, x s = .ok (a, t) ∧ f a t = .ok (b, s') := by
  change (StateT.bind x f) s = .ok (b, s') ↔ _
  unfold StateT.bind
  rw [except_bind_ok]
  constructor
  · rintro ⟨⟨a, t⟩, hx, hf⟩
    exact ⟨a, t, hx, hf⟩
  · rintro ⟨a, t, hx, hf⟩
    exact ⟨(a, t), hx, hf⟩

theorem state_bind_of_ok {a : α} {t : σ} (h : x s = .ok (a, t)) : (x >>= f) s = f a t := by
  change (x s).bind (fun p => f p.1 p.2) = _
  rw [h]
  rfl

theorem state_bind_of_error {e : ε} (h : x s = .error e) : (x >>= f) s = .error e := by
  change (x s).bind (fun p => f p.1 p.2) = _
  rw [h]
  rfl

theorem state_pure_ok {a b : α} :
    (pure a : StateT σ (Except ε) α) s = .ok (b, s') ↔ a = b ∧ s = s' := by
  change Except.ok (a, s) = .ok (b, s') ↔ _
  simp

theorem state_set_ok {t : σ} {u : PUnit} :
    (set t : StateT σ (Except ε) PUnit) s = .ok (u, s') ↔ t = s' := by
  change (Except.ok (PUnit.unit, t) : Except ε (PUnit × σ)) = .ok (u, s') ↔ _
  simp

theorem state_throw_ok {e : ε} {r : α × σ} : ¬ (throw e : StateT σ (Except ε) α) s = .ok r := by
  change ¬ Except.error e = .ok r
  simp

theorem state_discard_ok {u : PUnit} :
    (discard x) s = .ok (u, s') ↔ ∃ a, x s = .ok (a, s') := by
  change (StateT.map (fun _ => PUnit.unit) x) s = .ok (u, s') ↔ _
  unfold StateT.map
  rw [except_bind_ok]
  constructor
  · rintro ⟨⟨a, t⟩, hx, hf⟩
    obtain ⟨-, rfl⟩ : PUnit.unit = u ∧ t = s' := by simpa [pure, Except.pure] using hf
    exact ⟨a, hx⟩
  · rintro ⟨a, hx⟩
    exact ⟨(a, s'), hx, rfl⟩

theorem state_lift_ok {y : Except ε α} {a : α} :
    (liftM y : StateT σ (Except ε) α) s = .ok (a, s') ↔ y = .ok a ∧ s = s' := by
  change (y >>= fun a => pure (a, s)) = .ok (a, s') ↔ _
  rw [except_bind_ok]
  constructor
  · rintro ⟨b, rfl, hb⟩
    obtain ⟨rfl, rfl⟩ : b = a ∧ s = s' := by simpa [pure, Except.pure] using hb
    exact ⟨rfl, rfl⟩
  · rintro ⟨rfl, rfl⟩
    exact ⟨a, rfl, rfl⟩

end Plain

end Guarded

import Mathlib.Logic.Basic
import Mathlib.Tactic.Common

/-!
# Computations with a state that survives an exception

`Exec σ ε α` runs on a state `σ` and either returns a value or raises an exception; in both cases
it leaves a state behind. A C++ function that throws halfway is such a computation: what it wrote
before the throw stays written.

`Exec.Ok x s Q` says that `x`, started in `s`, returns normally and that its result and final state
satisfy `Q`. `Exec.Ok.bind` chains such facts along a computation; it is the one rule the proofs
about stateful functions use, so a caller cites what its callee establishes and never unfolds it.
-/

set_option autoImplicit false

namespace AtomKV

universe u

/-- A sequence of pure computations that returns has returned at each step. -/
theorem except_bind_eq_ok {ε α β : Type} {x : Except ε α} {f : α → Except ε β} {b : β}
    (h : (x >>= f) = .ok b) : ∃ a, x = .ok a ∧ f a = .ok b := by
  cases x with
  | ok a => exact ⟨a, rfl, h⟩
  | error e => cases h

/-- A computation on the state `σ` with exceptions `ε`. -/
def Exec (σ ε α : Type) : Type := σ → Except ε α × σ

namespace Exec

variable {σ ε α β : Type}

/-- Returning a value leaves the state alone. -/
def ret (a : α) : Exec σ ε α := fun s => (.ok a, s)

/-- Sequencing: an exception skips the continuation. -/
def andThen (x : Exec σ ε α) (f : α → Exec σ ε β) : Exec σ ε β := fun s =>
  match x s with
  | (.ok a, s') => f a s'
  | (.error e, s') => (.error e, s')

instance : Monad (Exec σ ε) where
  pure := ret
  bind := andThen

instance : LawfulMonad (Exec σ ε) := by
  refine LawfulMonad.mk' _ (fun x => ?_) (fun _ _ => rfl) (fun x f g => ?_)
  · funext s
    show andThen x (fun a => ret a) s = x s
    unfold andThen
    rcases x s with ⟨_ | _, _⟩ <;> rfl
  · funext s
    show andThen (andThen x f) g s = andThen x (fun a => andThen (f a) g) s
    unfold andThen
    rcases x s with ⟨_ | _, _⟩ <;> rfl

/-- Raise an exception. -/
def raise (e : ε) : Exec σ ε α := fun s => (.error e, s)

/-- Read the state. -/
def read : Exec σ ε σ := fun s => (.ok s, s)

/-- Change the state. -/
def change (f : σ → σ) : Exec σ ε Unit := fun s => (.ok (), f s)

/-- Lift a pure result that may be an exception. -/
def lift (r : Except ε α) : Exec σ ε α := fun s => (r, s)

/-- Raise `e` unless `p` holds. -/
def require (p : Prop) [Decidable p] (e : ε) : Exec σ ε Unit := if p then ret () else raise e

/-- `x` returns normally from `s`, and its result and final state satisfy `Q`. -/
def Ok (x : Exec σ ε α) (s : σ) (Q : α → σ → Prop) : Prop :=
  ∃ a s', x s = (.ok a, s') ∧ Q a s'

/-- `x` raises an exception from `s`. -/
def Fails (x : Exec σ ε α) (s : σ) : Prop := ∃ e s', x s = (.error e, s')

theorem bind_of_ok {x : Exec σ ε α} {f : α → Exec σ ε β} {s s' : σ} {a : α}
    (h : x s = (.ok a, s')) : (x >>= f) s = f a s' := by
  show andThen x f s = _
  simp only [andThen, h]

theorem bind_of_error {x : Exec σ ε α} {f : α → Exec σ ε β} {s s' : σ} {e : ε}
    (h : x s = (.error e, s')) : (x >>= f) s = (.error e, s') := by
  show andThen x f s = _
  simp only [andThen, h]

/-- A sequence that returns has returned at each step. -/
theorem bind_eq_ok {x : Exec σ ε α} {f : α → Exec σ ε β} {s t : σ} {b : β}
    (h : (x >>= f) s = (.ok b, t)) : ∃ a s', x s = (.ok a, s') ∧ f a s' = (.ok b, t) := by
  cases hx : x s with
  | mk r s' =>
    cases r with
    | ok a => exact ⟨a, s', rfl, by rw [bind_of_ok hx] at h; exact h⟩
    | error e =>
      rw [bind_of_error hx] at h
      cases h

/-- A sequence ends in its first part, or goes on from there. -/
theorem bind_cases {x : Exec σ ε α} {f : α → Exec σ ε β} {s t : σ} {r : Except ε β}
    (h : (x >>= f) s = (r, t)) :
    (∃ e, x s = (.error e, t)) ∨ ∃ a s', x s = (.ok a, s') ∧ f a s' = (r, t) := by
  cases hx : x s with
  | mk q s' =>
    cases q with
    | ok a => exact .inr ⟨a, s', rfl, by rw [bind_of_ok hx] at h; exact h⟩
    | error e =>
      rw [bind_of_error hx] at h
      cases h
      exact .inl ⟨e, rfl⟩

@[simp] theorem pure_apply (a : α) (s : σ) : (pure a : Exec σ ε α) s = (.ok a, s) := rfl

@[simp] theorem raise_apply (e : ε) (s : σ) : (raise e : Exec σ ε α) s = (.error e, s) := rfl

@[simp] theorem read_bind (f : σ → Exec σ ε β) (s : σ) : (read >>= f) s = f s s := rfl

@[simp] theorem change_bind (g : σ → σ) (f : Unit → Exec σ ε β) (s : σ) :
    (change g >>= f) s = f () (g s) := rfl

@[simp] theorem change_apply (g : σ → σ) (s : σ) : (change g : Exec σ ε Unit) s = (.ok (), g s) :=
  rfl

@[simp] theorem pure_bind_apply (a : α) (f : α → Exec σ ε β) (s : σ) :
    ((pure a : Exec σ ε α) >>= f) s = f a s := rfl

@[simp] theorem lift_ok_bind (a : α) (f : α → Exec σ ε β) (s : σ) :
    ((lift (.ok a) : Exec σ ε α) >>= f) s = f a s := rfl

@[simp] theorem lift_error_bind (e : ε) (f : α → Exec σ ε β) (s : σ) :
    ((lift (.error e) : Exec σ ε α) >>= f) s = (.error e, s) := rfl

theorem require_bind {p : Prop} [Decidable p] (hp : p) (e : ε) (f : Unit → Exec σ ε β) (s : σ) :
    ((require p e : Exec σ ε Unit) >>= f) s = f () s := by
  simp only [require, if_pos hp]
  rfl

theorem require_bind_not {p : Prop} [Decidable p] (hp : ¬ p) (e : ε) (f : Unit → Exec σ ε β)
    (s : σ) : ((require p e : Exec σ ε Unit) >>= f) s = (.error e, s) := by
  simp only [require, if_neg hp]
  rfl

/-- **Sequencing rule.** -/
theorem Ok.bind {x : Exec σ ε α} {f : α → Exec σ ε β} {s : σ} {Q : α → σ → Prop}
    {R : β → σ → Prop} (hx : Ok x s Q) (hf : ∀ a s', Q a s' → Ok (f a) s' R) :
    Ok (x >>= f) s R := by
  obtain ⟨a, s', hrun, hq⟩ := hx
  obtain ⟨b, s'', hrun', hr⟩ := hf a s' hq
  exact ⟨b, s'', by rw [bind_of_ok hrun, hrun'], hr⟩

/-- Weakening the conclusion. -/
theorem Ok.imp {x : Exec σ ε α} {s : σ} {Q R : α → σ → Prop} (hx : Ok x s Q)
    (h : ∀ a s', Q a s' → R a s') : Ok x s R := by
  obtain ⟨a, s', hrun, hq⟩ := hx
  exact ⟨a, s', hrun, h a s' hq⟩

theorem Ok.pure {a : α} {s : σ} {Q : α → σ → Prop} (h : Q a s) :
    Ok (Pure.pure a : Exec σ ε α) s Q := ⟨a, s, rfl, h⟩

theorem Ok.read {s : σ} {f : σ → Exec σ ε β} {R : β → σ → Prop} (h : Ok (f s) s R) :
    Ok (Exec.read >>= f) s R := h

theorem Ok.change {s : σ} {g : σ → σ} {f : Unit → Exec σ ε β} {R : β → σ → Prop}
    (h : Ok (f ()) (g s) R) : Ok (Exec.change g >>= f) s R := h

theorem Ok.require {p : Prop} [Decidable p] {e : ε} {s : σ} {f : Unit → Exec σ ε β}
    {R : β → σ → Prop} (hp : p) (h : Ok (f ()) s R) : Ok (Exec.require p e >>= f) s R := by
  obtain ⟨b, s', hrun, hr⟩ := h
  exact ⟨b, s', by rw [require_bind hp, hrun], hr⟩

/-- A run that is known step by step. -/
theorem Ok.of_eq {x : Exec σ ε α} {s s' : σ} {a : α} {Q : α → σ → Prop}
    (h : x s = (.ok a, s')) (hq : Q a s') : Ok x s Q := ⟨a, s', h, hq⟩

theorem Ok.intro {x : Exec σ ε α} {s : σ} {Q : α → σ → Prop} (a : α) (s' : σ)
    (h : x s = (.ok a, s')) (hq : Q a s') : Ok x s Q := ⟨a, s', h, hq⟩

/-- A run may be replaced by an equal one. -/
theorem Ok.of_run_eq {x y : Exec σ ε α} {s t : σ} {Q : α → σ → Prop} (h : x s = y t)
    (hy : Ok y t Q) : Ok x s Q := by
  obtain ⟨a, s', hrun, hq⟩ := hy
  exact ⟨a, s', h.trans hrun, hq⟩

/-- A computation has one outcome. -/
theorem Ok.eq_of_eq {x : Exec σ ε α} {s s' : σ} {a : α} {Q : α → σ → Prop}
    (hx : Ok x s Q) (h : x s = (.ok a, s')) : Q a s' := by
  obtain ⟨b, t, hrun, hq⟩ := hx
  rw [hrun] at h
  cases h
  exact hq

/-! ## Invariants that an exception does not break -/

/-- `x` keeps `I`, whether it returns or raises, and a result satisfies `Q`. -/
def Keeps (I : σ → Prop) (x : Exec σ ε α) (Q : α → Prop) : Prop :=
  ∀ s, I s → I (x s).2 ∧ ∀ a, (x s).1 = .ok a → Q a

variable {I : σ → Prop} {Q : α → Prop} {R : β → Prop}

/-- **Sequencing rule.** -/
theorem Keeps.bind {x : Exec σ ε α} {f : α → Exec σ ε β} (hx : Keeps I x Q)
    (hf : ∀ a, Q a → Keeps I (f a) R) : Keeps I (x >>= f) R := by
  intro s hs
  obtain ⟨hinv, hq⟩ := hx s hs
  cases hrun : x s with
  | mk r s' =>
    rw [hrun] at hinv hq
    cases r with
    | ok a =>
      rw [bind_of_ok hrun]
      exact hf a (hq a rfl) s' hinv
    | error e =>
      rw [bind_of_error hrun]
      exact ⟨hinv, fun _ h => by cases h⟩

/-- Sequencing from one state: the rest is run from a state that the first part reaches. -/
theorem state_bind {x : Exec σ ε α} {f : α → Exec σ ε β} {s : σ} (hx : I (x s).2)
    (hf : ∀ a s', x s = (.ok a, s') → I s' → I (f a s').2) : I ((x >>= f) s).2 := by
  cases hrun : x s with
  | mk r s' =>
    rw [hrun] at hx
    cases r with
    | ok a =>
      rw [bind_of_ok hrun]
      exact hf a s' hrun hx
    | error e =>
      rw [bind_of_error hrun]
      exact hx

theorem Keeps.imp {Q' : α → Prop} {x : Exec σ ε α} (hx : Keeps I x Q) (h : ∀ a, Q a → Q' a) :
    Keeps I x Q' := by
  intro s hs
  obtain ⟨hinv, hq⟩ := hx s hs
  exact ⟨hinv, fun a ha => h a (hq a ha)⟩

theorem Keeps.pure {a : α} (h : Q a) : Keeps I (Pure.pure a : Exec σ ε α) Q := by
  intro s hs
  refine ⟨hs, fun b hb => ?_⟩
  cases hb
  exact h

theorem Keeps.raise {e : ε} : Keeps I (Exec.raise e : Exec σ ε α) Q :=
  fun _ hs => ⟨hs, fun _ h => by cases h⟩

theorem Keeps.raise_bind {e : ε} {f : α → Exec σ ε β} : Keeps I (Exec.raise e >>= f) R :=
  Keeps.bind (Keeps.raise (Q := fun _ => False)) fun _ h => h.elim

theorem Keeps.read : Keeps I (Exec.read : Exec σ ε σ) I := by
  intro s hs
  refine ⟨hs, fun a ha => ?_⟩
  cases ha
  exact hs

theorem Keeps.change {g : σ → σ} (h : ∀ s, I s → I (g s)) :
    Keeps I (Exec.change g : Exec σ ε Unit) fun _ => True :=
  fun s hs => ⟨h s hs, fun _ _ => trivial⟩

theorem Keeps.lift {r : Except ε α} (h : ∀ a, r = .ok a → Q a) :
    Keeps I (Exec.lift r : Exec σ ε α) Q :=
  fun _ hs => ⟨hs, h⟩

theorem Keeps.require {p : Prop} [Decidable p] {e : ε} :
    Keeps I (Exec.require p e : Exec σ ε Unit) fun _ => p := by
  unfold Exec.require
  split_ifs with hp
  · exact Keeps.pure hp
  · exact Keeps.raise

theorem Keeps.ite {p : Prop} [Decidable p] {x y : Exec σ ε α} (hx : p → Keeps I x Q)
    (hy : ¬ p → Keeps I y Q) : Keeps I (if p then x else y) Q := by
  split_ifs with hp
  · exact hx hp
  · exact hy hp

/-! ## What holds when a computation returns -/

/-- Whenever `x`, started where `I` holds, returns, its result and final state satisfy `J`. -/
def Yields (I : σ → Prop) (x : Exec σ ε α) (J : α → σ → Prop) : Prop :=
  ∀ s, I s → ∀ a t, x s = (.ok a, t) → J a t

variable {J : α → σ → Prop} {K : β → σ → Prop}

/-- **Sequencing rule.** -/
theorem Yields.bind {x : Exec σ ε α} {f : α → Exec σ ε β} (hx : Yields I x J)
    (hf : ∀ a, Yields (J a) (f a) K) : Yields I (x >>= f) K := by
  intro s hs b t hrun
  obtain ⟨a, s', hx', hf'⟩ := bind_eq_ok hrun
  exact hf a s' (hx s hs a s' hx') b t hf'

theorem Keeps.yields {x : Exec σ ε α} (hx : Keeps I x Q) : Yields I x fun a s => Q a ∧ I s := by
  intro s hs a t hrun
  have hkept := hx s hs
  rw [hrun] at hkept
  exact ⟨hkept.2 a rfl, hkept.1⟩

/-- Nothing is asked of the result of the first part. -/
theorem Keeps.then_yields {x : Exec σ ε α} {f : α → Exec σ ε β} (hx : Keeps I x fun _ => True)
    (hf : ∀ a, Yields I (f a) K) : Yields I (x >>= f) K :=
  hx.yields.bind fun a s hs => hf a s hs.2

/-- More may hold at the beginning. -/
theorem Yields.weaken {I' : σ → Prop} {x : Exec σ ε α} (hx : Yields I x J) (h : ∀ s, I' s → I s) :
    Yields I' x J :=
  fun s hs => hx s (h s hs)

theorem Yields.imp {J' : α → σ → Prop} {x : Exec σ ε α} (hx : Yields I x J)
    (h : ∀ a s, J a s → J' a s) : Yields I x J' :=
  fun s hs a t hrun => h a t (hx s hs a t hrun)

theorem Yields.pure {a : α} (h : ∀ s, I s → J a s) : Yields I (Pure.pure a : Exec σ ε α) J := by
  intro s hs b t hrun
  cases hrun
  exact h s hs

theorem Yields.raise {e : ε} : Yields I (Exec.raise e : Exec σ ε α) J := by
  intro s _ a t hrun
  cases hrun

theorem Yields.raise_bind {e : ε} {f : α → Exec σ ε β} : Yields I (Exec.raise e >>= f) K :=
  Yields.bind (Yields.raise (J := fun _ _ => False)) fun _ _ h => h.elim

theorem Yields.change {g : σ → σ} {L : σ → Prop} (h : ∀ s, I s → L (g s)) :
    Yields I (Exec.change g : Exec σ ε Unit) fun _ => L := by
  intro s hs a t hrun
  cases hrun
  exact h s hs

theorem Yields.ite {p : Prop} [Decidable p] {x y : Exec σ ε α} (hx : p → Yields I x J)
    (hy : ¬ p → Yields I y J) : Yields I (if p then x else y) J := by
  split_ifs with hp
  · exact hx hp
  · exact hy hp

/-! ## Computations that only read -/

/-- `x` leaves the state as it is, whether it returns or raises. -/
def ReadOnly (x : Exec σ ε α) : Prop := ∀ s, (x s).2 = s

theorem ReadOnly.bind {x : Exec σ ε α} {f : α → Exec σ ε β} (hx : ReadOnly x)
    (hf : ∀ a, ReadOnly (f a)) : ReadOnly (x >>= f) := by
  intro s
  have hstate := hx s
  cases hrun : x s with
  | mk r s' =>
    rw [hrun] at hstate
    obtain rfl : s' = s := hstate
    cases r with
    | ok a =>
      rw [bind_of_ok hrun]
      exact hf a s'
    | error e =>
      rw [bind_of_error hrun]

theorem ReadOnly.bind_eq_ok {x : Exec σ ε α} {f : α → Exec σ ε β} {s t : σ} {b : β}
    (hx : ReadOnly x) (h : (x >>= f) s = (.ok b, t)) : ∃ a, x s = (.ok a, s) ∧
    f a s = (.ok b, t) := by
  obtain ⟨a, s', hrun, hf⟩ := Exec.bind_eq_ok h
  have hread := hx s
  rw [hrun] at hread
  obtain rfl : s' = s := hread
  exact ⟨a, hrun, hf⟩

theorem ReadOnly.pure {a : α} : ReadOnly (Pure.pure a : Exec σ ε α) := fun _ => rfl

theorem ReadOnly.raise {e : ε} : ReadOnly (Exec.raise e : Exec σ ε α) := fun _ => rfl

theorem ReadOnly.read : ReadOnly (Exec.read : Exec σ ε σ) := fun _ => rfl

theorem ReadOnly.require {p : Prop} [Decidable p] {e : ε} :
    ReadOnly (Exec.require p e : Exec σ ε Unit) := by
  unfold Exec.require
  split_ifs
  · exact ReadOnly.pure
  · exact ReadOnly.raise

theorem ReadOnly.ite {p : Prop} [Decidable p] {x y : Exec σ ε α} (hx : ReadOnly x)
    (hy : ReadOnly y) : ReadOnly (if p then x else y) := by
  split_ifs
  · exact hx
  · exact hy

/-- Reading keeps every invariant. -/
theorem ReadOnly.keeps {x : Exec σ ε α} (hx : ReadOnly x) : Keeps I x fun _ => True :=
  fun s hs => ⟨(hx s).symm ▸ hs, fun _ _ => trivial⟩

end Exec

end AtomKV

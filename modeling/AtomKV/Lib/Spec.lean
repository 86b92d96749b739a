import AtomKV.Lib.Exec
import Mathlib.Logic.Function.Basic

/-!
# Objects that answer as specified

A `Spec` is what an object is for: which calls a client may make in an abstract state, what a call
answers and what it makes of the state. `Spec.calls_eq` is the rule for runs: an object whose every
call acts as specified answers every sequence of permitted calls as specified. The relation between
states may depend on the number of calls to come, as where every call uses up some room. `Spec.each`
specifies a family of objects that are called in any order.
-/

set_option autoImplicit false

namespace AtomKV

/-- The calls `ι` on an abstract state `α`. -/
structure Spec (ι ρ α : Type) where
  permits : α → ι → Prop
  reply : α → ι → ρ
  next : α → ι → α

namespace Exec

variable {σ ε ι ρ : Type}

/-- The calls one after the other, with their answers. -/
def calls (run : ι → Exec σ ε ρ) : List ι → Exec σ ε (List ρ)
  | [] => pure []
  | i :: is => do
      let r ← run i
      let rs ← calls run is
      return r :: rs

theorem calls_cons {run : ι → Exec σ ε ρ} {i : ι} {is : List ι} {s s₁ s₂ : σ} {r : ρ} {rs : List ρ}
    (h : run i s = (.ok r, s₁)) (hs : calls run is s₁ = (.ok rs, s₂)) : calls run (i :: is) s =
      (.ok (r :: rs), s₂) := by
  unfold calls
  rw [bind_of_ok h, bind_of_ok hs]
  rfl

end Exec

namespace Spec

variable {σ ε ι ρ α : Type} (S : Spec ι ρ α)

/-- Every call is permitted where it is made. -/
def Permits : α → List ι → Prop
  | _, [] => True
  | a, i :: is => S.permits a i ∧ Permits (S.next a i) is

instance instDecidablePermits [∀ a i, Decidable (S.permits a i)] :
    (a : α) → (is : List ι) → Decidable (S.Permits a is)
  | _, [] => inferInstanceAs (Decidable True)
  | a, i :: is =>
      have := instDecidablePermits (S.next a i) is
      inferInstanceAs (Decidable (S.permits a i ∧ S.Permits (S.next a i) is))

/-- What the calls answer. -/
def replies : α → List ι → List ρ
  | _, [] => []
  | a, i :: is => S.reply a i :: replies (S.next a i) is

/-- The state after the calls. -/
def after (a : α) (is : List ι) : α := is.foldl S.next a

theorem after_cons (a : α) (i : ι) (is : List ι) : S.after a (i :: is) = S.after (S.next a i) is :=
  rfl

variable {S}

/-- **The rule for runs.** -/
theorem calls_eq {run : ι → Exec σ ε ρ} {R : ℕ → α → σ → Prop} (is : List ι)
    (hstep : ∀ n a s, ∀ i ∈ is, R (n + 1) a s → S.permits a i →
      ∃ s', run i s = (.ok (S.reply a i), s') ∧ R n (S.next a i) s')
    {n : ℕ} {a : α} {s : σ} (h : R (is.length + n) a s) (hpermits : S.Permits a is) :
    ∃ s', Exec.calls run is s = (.ok (S.replies a is), s') ∧ R n (S.after a is) s' := by
  induction is generalizing a s with
  | nil =>
    rw [List.length_nil, Nat.zero_add] at h
    exact ⟨s, rfl, h⟩
  | cons i is ih =>
    obtain ⟨hi, hrest⟩ := hpermits
    rw [List.length_cons, Nat.add_right_comm] at h
    obtain ⟨s₁, hrun, h₁⟩ := hstep _ a s i List.mem_cons_self h hi
    obtain ⟨s₂, hruns, h₂⟩ :=
      ih (fun n a s j hj => hstep n a s j (List.mem_cons_of_mem _ hj)) h₁ hrest
    exact ⟨s₂, Exec.calls_cons hrun hruns, h₂⟩

section Each

variable {κ : Type} [DecidableEq κ]

/-- One object for each name; a call names its object and concerns no other. -/
def each (κ : Type) [DecidableEq κ] (S : Spec ι ρ α) : Spec (κ × ι) ρ (κ → α) where
  permits a c := S.permits (a c.1) c.2
  reply a c := S.reply (a c.1) c.2
  next a c := Function.update a c.1 (S.next (a c.1) c.2)

instance [∀ a i, Decidable (S.permits a i)] (a : κ → α) (c : κ × ι) :
    Decidable ((S.each κ).permits a c) :=
  inferInstanceAs (Decidable (S.permits (a c.1) c.2))

/-- The calls to one object are a run of that object. -/
theorem after_each (a : κ → α) (cs : List (κ × ι)) (k : κ) :
    (S.each κ).after a cs k = S.after (a k) ((cs.filter fun c => c.1 = k).map Prod.snd) := by
  induction cs generalizing a with
  | nil => rfl
  | cons c cs ih =>
    rw [after_cons, ih]
    by_cases hk : c.1 = k
    · subst hk
      rw [List.filter_cons_of_pos (by simp), List.map_cons, after_cons]
      show S.after (Function.update a c.1 _ c.1) _ = _
      rw [Function.update_self]
    · rw [List.filter_cons_of_neg (by simpa using hk)]
      show S.after (Function.update a c.1 _ k) _ = _
      rw [Function.update_of_ne (Ne.symm hk)]

end Each

end Spec

end AtomKV

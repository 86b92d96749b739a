import Mathlib.Data.List.Basic
import Mathlib.Tactic.Common

/-!
# Journals of transactions

A journal is a list of entries: the begin of a transaction, an operation, a commit, a
rollback. `follow` says what a journal does to a committed state and the state of the open
transaction, `status` whether its entries come in an order that makes sense. The operations
and the states are arbitrary.
-/

set_option autoImplicit false

namespace AtomKV

namespace Journal

variable {Op C : Type}

inductive Entry (Op : Type) where
  | begin
  | rollback
  | commit
  | op (o : Op)
  deriving DecidableEq, Repr

/-- The committed state, and what the open transaction sees. -/
structure View (C : Type) where
  committed : C
  working : Option C
  deriving DecidableEq

section Follow

variable (apply : Op → C → C)

def step (v : View C) : Entry Op → View C
  | .begin => ⟨v.committed, some v.committed⟩
  | .rollback => ⟨v.committed, none⟩
  | .commit => ⟨v.working.getD v.committed, none⟩
  | .op o => ⟨v.committed, v.working.map (apply o)⟩

/-- What the entries of a journal do, one after the other. -/
def follow (v : View C) (l : List (Entry Op)) : View C := l.foldl (step apply) v

@[simp] theorem follow_nil (v : View C) : follow apply v [] = v := rfl

@[simp] theorem follow_cons (v : View C) (e : Entry Op) (l : List (Entry Op)) :
    follow apply v (e :: l) = follow apply (step apply v e) l := rfl

theorem follow_append (v : View C) (l r : List (Entry Op)) :
    follow apply v (l ++ r) = follow apply (follow apply v l) r := List.foldl_append

/-- Without a commit the committed state stays. -/
theorem committed_follow {v : View C} {l : List (Entry Op)} (h : .commit ∉ l) :
    (follow apply v l).committed = v.committed := by
  induction l generalizing v with
  | nil => rfl
  | cons e l ih =>
    rw [follow_cons, ih fun hl => h (List.mem_cons_of_mem _ hl)]
    cases e with
    | commit => exact absurd List.mem_cons_self h
    | _ => rfl

end Follow

/-- Whether a transaction is open after the entry; nothing if the entry is out of place. -/
def next : Bool → Entry Op → Option Bool
  | false, .begin => some true
  | true, .rollback => some false
  | true, .commit => some false
  | true, .op _ => some true
  | _, _ => none

/-- Whether a transaction is open after the journal. -/
def status : Bool → List (Entry Op) → Option Bool
  | b, [] => some b
  | b, e :: l => (next b e).bind fun b' => status b' l

theorem status_append (b : Bool) (l r : List (Entry Op)) :
    status b (l ++ r) = (status b l).bind fun b' => status b' r := by
  induction l generalizing b with
  | nil => rfl
  | cons e l ih =>
    show (next b e).bind _ = ((next b e).bind _).bind _
    cases next b e with
    | none => rfl
    | some b' => exact ih b'

/-- A prefix of an orderly journal is orderly. -/
theorem status_prefix {b : Bool} {p l : List (Entry Op)} (hp : p <+: l) (h : (status b l).isSome) :
    (status b p).isSome := by
  obtain ⟨r, rfl⟩ := hp
  rw [status_append] at h
  cases hs : status b p with
  | none => simp [hs] at h
  | some b' => rfl

/-- The transaction that `status` counts as open is the one that `follow` works on. -/
theorem working_follow {apply : Op → C → C} {v : View C} {l : List (Entry Op)} {b : Bool}
    (h : status v.working.isSome l = some b) : (follow apply v l).working.isSome = b := by
  induction l generalizing v with
  | nil => exact Option.some.inj h
  | cons e l ih =>
    cases hn : next v.working.isSome e with
    | none => simp [status, hn] at h
    | some b' =>
      have hstep : (step apply v e).working.isSome = b' := by
        cases hw : v.working with
        | none =>
          rw [hw] at hn
          cases e <;> cases hn
          rfl
        | some c =>
          rw [hw] at hn
          cases e <;> cases hn
          · rfl
          · rfl
          · simp [step, hw]
      rw [follow_cons]
      refine ih ?_
      rw [hstep]
      simpa [status, hn] using h

/-- The number of commits. -/
def commits (l : List (Entry Op)) : Nat := (l.filter fun e => match e with
  | .commit => true
  | _ => false).length

@[simp] theorem commits_nil : commits ([] : List (Entry Op)) = 0 := rfl

theorem commits_append (l r : List (Entry Op)) : commits (l ++ r) = commits l + commits r := by
  unfold commits
  rw [List.filter_append, List.length_append]

theorem not_mem_of_commits_eq_zero {l : List (Entry Op)} (h : commits l = 0) : .commit ∉ l := by
  intro hl
  unfold commits at h
  rw [List.length_eq_zero_iff, List.filter_eq_nil_iff] at h
  exact h _ hl rfl

theorem commits_prefix_le {p l : List (Entry Op)} (hp : p <+: l) : commits p ≤ commits l := by
  obtain ⟨r, rfl⟩ := hp
  rw [commits_append]
  omega

end Journal

end AtomKV

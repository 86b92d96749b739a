import AtomKV.Dictionary
import Mathlib.Algebra.BigOperators.Group.Finset.Basic

/-!
# Several trees in one file

The buckets of a transaction are trees in the same file. `Grove Γ b I ρ m s` says that the state
holds a tree for each name in `I`, with the root `ρ` and the dictionary `m`, and that no two of
them have a page in common. A call works on one of the trees: the others are among the objects that
it leaves alone.
-/

set_option autoImplicit false

namespace AtomKV

/-- One of the trees. -/
structure Planted (Γ : Scope) (root : Nat) (m : Dictionary) (t : Shape) : Prop where
  root : t.pgid = root
  ordered : t.Ordered Γ.env.comparator
  full : t.RootFull
  safe : t.Safe Γ.need Γ.keep
  slim : t.Slim Γ.P
  lists : m.Lists t.contents

section Grove

variable {κ : Type} {Γ : Scope} {b b' : ℕ} {I : Finset κ} {ρ : κ → Nat} {m : κ → Dictionary}
  {s s' : TxState} {k : κ}

/-- The trees, and pages that nothing refers to. -/
def Grove (Γ : Scope) (b : ℕ) (I : Finset κ) (ρ : κ → Nat) (m : κ → Dictionary)
    (s : TxState) : Prop :=
  ∃ (t : κ → Shape) (G : Multiset Obj), JunkOnly G ∧
    Own Γ b s.rootPgid ((I.sum fun i => (t i).objs) + G) s ∧ ∀ i ∈ I, Planted Γ (ρ i) (m i) (t i)

/-- A new file holds a tree without records for each name. -/
theorem Grove.empty {env : Env} {ok : env.Ok} {info : MetaInfo} {b : ℕ} (I : Finset κ) (root : Nat)
    (hroom : 2 + b ≤ kPageMaxCount) : Grove (layoutScope env ok info 0) b I
      (fun _ => kPageInvalidId) (fun _ _ => none) (layout env.pageSize info root []) := by
  have hwf : WellFormed (layoutScope env ok info 0) b .empty 0
      (layout env.pageSize info kPageInvalidId []) :=
    wellFormed_empty hroom
  have hobjs : (I.sum fun _ => Shape.empty.objs) + 0 = (0 : Multiset Obj) := by
    rw [add_zero]
    exact Finset.sum_const_zero
  refine ⟨fun _ => .empty, 0, JunkOnly.zero, ?_, fun _ _ => ?_⟩
  · rw [hobjs]
    exact hwf.own.setRoot root
  · exact ⟨rfl, hwf.ordered, hwf.full, hwf.safe, fun x hx => absurd hx List.not_mem_nil,
      fun _ => rfl⟩

/-- The root page that the tree code looks at is another one. -/
theorem Grove.setRoot (h : Grove Γ b I ρ m s) (root : Nat) :
    Grove Γ b I ρ m { s with rootPgid := root } := by
  obtain ⟨t, G, hG, hown, ht⟩ := h
  exact ⟨t, G, hG, hown.setRoot root, ht⟩

theorem Grove.room_mono (h : Grove Γ b I ρ m s) (hb : b' ≤ b) : Grove Γ b' I ρ m s := by
  obtain ⟨t, G, hG, hown, ht⟩ := h
  exact ⟨t, G, hG, hown.room_mono _ hb, ht⟩

/-- Only the trees of the names in `I` count. -/
theorem Grove.congr {ρ' : κ → Nat} {m' : κ → Dictionary} (h : Grove Γ b I ρ m s)
    (heq : ∀ i ∈ I, ρ' i = ρ i ∧ m' i = m i) : Grove Γ b I ρ' m' s := by
  obtain ⟨t, G, hG, hown, ht⟩ := h
  refine ⟨t, G, hG, hown, fun i hi => ?_⟩
  rw [(heq i hi).1, (heq i hi).2]
  exact ht i hi

variable [DecidableEq κ]

/-- **One tree at a time.** A call on the tree of `k` takes the other trees for objects of somebody
else, and what it leaves is a grove again. -/
theorem Grove.focus (h : Grove Γ b I ρ m s) (hk : k ∈ I) :
    ∃ O, HoldsMap Γ b (m k) O { s with rootPgid := ρ k } ∧
    ∀ {b' : ℕ} {m' : Dictionary} {s' : TxState}, HoldsMap Γ b' m' O s' →
      Grove Γ b' I (Function.update ρ k s'.rootPgid) (Function.update m k m') s' := by
  obtain ⟨t, G, hG, hown, ht⟩ := h
  have hfocus := ht k hk
  refine ⟨(I.erase k).sum fun i => (t i).objs,
    ⟨t k, G, hG, ⟨?_, hfocus.ordered, hfocus.full, hfocus.safe⟩, hfocus.slim, hfocus.lists⟩, ?_⟩
  · rw [hfocus.root]
    refine (hown.setRoot (ρ k)).perm ?_
    rw [← Finset.add_sum_erase I (fun i => (t i).objs) hk]
    abel
  · rintro b' m' s' ⟨t', G', hG', hwf, hslim, hm'⟩
    refine ⟨Function.update t k t', G', hG', ?_, fun i hi => ?_⟩
    · have hroot : s'.rootPgid = t'.pgid := hwf.own.root
      rw [hroot, ← Finset.add_sum_erase I _ hk]
      refine hwf.own.perm ?_
      -- the trees of the other buckets stay as they are
      have hothers : ((I.erase k).sum fun i => (Function.update t k t' i).objs) =
          (I.erase k).sum fun i => (t i).objs := by
        apply Finset.sum_congr rfl
        intro i hi
        rw [Function.update_of_ne (Finset.ne_of_mem_erase hi)]
      rw [hothers, Function.update_self]
      abel
    · by_cases hik : i = k
      · subst hik
        rw [Function.update_self, Function.update_self, Function.update_self]
        exact ⟨hwf.own.root.symm, hwf.ordered, hwf.full, hwf.safe, hslim, hm'⟩
      · rw [Function.update_of_ne hik, Function.update_of_ne hik, Function.update_of_ne hik]
        exact ht i hi

/-- A lookup in one of the trees. -/
theorem Grove.lookup (h : Grove Γ b I ρ m s) (hk : k ∈ I) (key : Bytes) :
    BTree.lookup Γ.env key { s with rootPgid := ρ k } =
      (.ok (m k key), { s with rootPgid := ρ k }) := by
  obtain ⟨O, hmap, -⟩ := h.focus hk
  exact hmap.lookup key

/-- A bucket is created without a page. -/
theorem Grove.insert (h : Grove Γ b I ρ m s) (hk : k ∉ I) :
    Grove Γ b (insert k I) (Function.update ρ k kPageInvalidId)
      (Function.update m k fun _ => none) s := by
  obtain ⟨t, G, hG, hown, ht⟩ := h
  have hothers : ∀ i ∈ I, Function.update t k .empty i = t i := by
    intro i hi
    apply Function.update_of_ne
    rintro rfl
    exact hk hi
  refine ⟨Function.update t k .empty, G, hG, ?_, fun i hi => ?_⟩
  · rw [Finset.sum_insert hk, Function.update_self, Finset.sum_congr rfl fun i hi =>
      congrArg Shape.objs (hothers i hi)]
    refine hown.perm ?_
    show _ = 0 + _ + _
    rw [zero_add]
  · rcases Finset.mem_insert.1 hi with rfl | hmem
    · rw [Function.update_self, Function.update_self, Function.update_self]
      exact ⟨rfl, List.Pairwise.nil, trivial, trivial, fun x hx => absurd hx List.not_mem_nil,
        fun _ => rfl⟩
    · have hik : i ≠ k := fun he => hk (he ▸ hmem)
      rw [hothers i hmem, Function.update_of_ne hik, Function.update_of_ne hik]
      exact ht i hmem

end Grove

end AtomKV

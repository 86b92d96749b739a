import AtomKV.Layout
import AtomKV.Put

/-!
# The insertion law

When `BTree::Put` of a new key keeps a well-formed tree well-formed. The law holds exactly for the
trees and records with `Shape.InsertsCleanly`: a branch that is split on the way up and has no room
for the separator in its right half wires a child twice.
-/

set_option autoImplicit false

namespace AtomKV

/-- The state holds a well-formed tree with the records of `t` and `data` in its place. -/
def HoldsInserted (Γ : Scope) (b : ℕ) (t : Shape) (data : Bytes × Bytes × Bool)
    (s : TxState) : Prop :=
  ∃ (A B : List (Bytes × Bytes × Bool)) (t' : Shape) (O : Multiset Obj),
    t.contents = A ++ B ∧ t'.contents = A ++ data :: B ∧ WellFormed Γ b t' O s

/-- **Insertion law.** -/
theorem put_inserts_iff {Γ : Scope} {b : ℕ} {t : Shape} {O : Multiset Obj} {s : TxState}
    {key value : Bytes} (h : WellFormed Γ (b + t.putRoom Γ.P Γ.env.comparator key value) t O s)
    (hadm : Admissible Γ.P key value) (habsent : find key t.contents = none) (isBucket : Bool) :
    (∃ s', BTree.put Γ.env key value isBucket s = (.ok (), s') ∧
        HoldsInserted Γ b t (key, value, isBucket) s') ↔
      t.InsertsCleanly Γ.P Γ.env.comparator key value := by
  obtain ⟨_, s', hrun, hgood, hbad⟩ := h.put_insert hadm habsent isBucket
  constructor
  · rintro ⟨s'', hrun', A, B, t', O', -, -, hwf⟩
    rw [hrun] at hrun'
    obtain rfl : s' = s'' := (Prod.mk.inj hrun').2
    by_contra hnot
    exact hwf.not_sharesChild (hbad hnot)
  · intro hclean
    obtain ⟨A, B, t', G, hA, hB, -, hwf⟩ := hgood hclean
    exact ⟨s', hrun, A, B, t', G + O, hA, hB, hwf⟩

/-! ## Two trees of two levels -/

section Example

/-- A key of 105 bytes. -/
def longKey (n : UInt8) : Bytes := n :: List.replicate 104 0

def keyEntry (key : Bytes) : Entry := ⟨key, [], false, 0⟩

/-- A full leaf on the left below a full root. -/
def splitTree : Tree 1 :=
  .branch 2 1 [keyEntry (longKey 3), keyEntry (longKey 5), keyEntry [7]]
    [.leaf 3 1 [keyEntry (longKey 0), keyEntry (longKey 2)], .leaf 4 1 [keyEntry (longKey 3)],
      .leaf 5 1 [keyEntry (longKey 5)], .leaf 6 1 [keyEntry [7]]] rfl

theorem wellFormed_splitTree (b : ℕ) (hb : b ≤ 1000) :
    WellFormed (layoutScope smallEnv smallEnv_ok freshMeta 5) b (.tree splitTree) 0
      (layout 256 freshMeta 2 splitTree.nodes) :=
  wellFormed_layout (t := splitTree)
    (by decide) (by decide) (by decide) (by decide)
    (by unfold kPageMaxCount; show 5 + 2 + b ≤ _; omega)

/-- The record does not fit into the leaf, and the key that rises does not fit into the root. Both
are split, and the left half of the root has room. -/
theorem put_inserts_iff_splitTree : ∃ s',
    BTree.put smallEnv (longKey 1) [] false (layout 256 freshMeta 2 splitTree.nodes) =
      (.ok (), s') ∧ HoldsInserted (layoutScope smallEnv smallEnv_ok freshMeta 5) 0
        (.tree splitTree) (longKey 1, [], false) s' :=
  (put_inserts_iff (b := 0) (wellFormed_splitTree _ (by decide))
    (admissible_small (by decide) (by decide)) (by decide) false).2 (by decide)

/-- A root with a short key and two long ones. Its right half, if it is split, is full. -/
def wideTree : Tree 1 :=
  .branch 2 1 [keyEntry [2], keyEntry (longKey 3), keyEntry (longKey 4)]
    [.leaf 3 1 [keyEntry [1]], .leaf 4 1 [keyEntry [2]], .leaf 5 1 [keyEntry (longKey 3)],
      .leaf 6 1 [keyEntry (longKey 4), keyEntry (longKey 6)]] rfl

theorem wellFormed_wideTree (b : ℕ) (hb : b ≤ 1000) :
    WellFormed (layoutScope smallEnv smallEnv_ok freshMeta 5) b (.tree wideTree) 0
      (layout 256 freshMeta 2 wideTree.nodes) :=
  wellFormed_layout (t := wideTree)
    (by decide) (by decide) (by decide) (by decide)
      (by unfold kPageMaxCount; show 5 + 2 + b ≤ _; omega)

/-- **The insertion law fails.** A fourth long key splits the root, and its right half has no room.
-/
theorem put_not_inserts : ∃ (Γ : Scope) (b : ℕ) (t : Shape) (O : Multiset Obj) (s : TxState)
    (key value : Bytes) (isBucket : Bool),
    WellFormed Γ (b + t.putRoom Γ.P Γ.env.comparator key value) t O s ∧ Admissible Γ.P key value ∧
      find key t.contents = none ∧
      ¬ ∃ s', BTree.put Γ.env key value isBucket s = (.ok (), s') ∧
        HoldsInserted Γ b t (key, value, isBucket) s' := by
  refine ⟨layoutScope smallEnv smallEnv_ok freshMeta 5, 0, .tree wideTree, 0,
    layout 256 freshMeta 2 wideTree.nodes, longKey 5, [], false, wellFormed_wideTree _ (by decide),
    admissible_small (by decide) (by decide), by decide, ?_⟩
  rintro ⟨s', hrun, A, B, t', O', -, -, hwf⟩
  obtain ⟨_, s'', hrun', -, hbad⟩ := (wellFormed_wideTree _ (by decide)).put_insert (b := 0)
    (show Admissible 256 (longKey 5) [] from admissible_small (by decide) (by decide))
      (by decide) false
  obtain rfl : s'' = s' := (Prod.mk.inj (hrun'.symm.trans hrun)).2
  exact hwf.not_sharesChild (hbad (by decide))

end Example

end AtomKV

import AtomKV.Layout
import AtomKV.Overwrite

/-!
# The overwrite law

When `BTree::Put` of a key that is there makes `BTree::Get` return the new value. It does exactly
when the leaf grants the request for the new record; otherwise the old value stays, or the
compaction fails.
-/

set_option autoImplicit false

namespace AtomKV

/-- Replacing the value of one key in a list of records. -/
theorem find_replace {key old value : Bytes} {isBucket : Bool} {A B : List (Bytes × Bytes × Bool)}
    (hA : ∀ d ∈ A, d.1 ≠ key) :
    find key (A ++ (key, value, isBucket) :: B) = some (value, isBucket) ∧
      ∀ k ≠ key, find k (A ++ (key, value, isBucket) :: B) =
        find k (A ++ (key, old, isBucket) :: B) := by
  constructor
  · rw [find_append, find_eq_none hA, Option.none_or]
    simp [find]
  · intro k hk
    rw [find_append, find_append]
    have hne : ¬ key = k := fun h => hk h.symm
    simp [find, hne]

/-- **Overwrite law.** -/
theorem put_overwrites_iff {Γ : Scope} {b : ℕ} {t : Shape} {O : Multiset Obj} {s : TxState}
    {key value old : Bytes} {isBucket : Bool}
    (h : WellFormed Γ (b + t.overwriteRoom Γ.P key value) t O s) (hadm : Admissible Γ.P key value)
    (hold : (BTree.lookup Γ.env key s).1 = .ok (some (old, isBucket))) :
    (∃ s', BTree.put Γ.env key value isBucket s = (.ok (), s') ∧
        (BTree.lookup Γ.env key s').1 = .ok (some (value, isBucket)) ∧
        ∀ k ≠ key, (BTree.lookup Γ.env k s').1 = (BTree.lookup Γ.env k s).1) ↔
      BTree.OverwriteFits Γ.env key value s := by
  have hfind : find key t.contents = some (old, isBucket) := by
    rw [h.lookup key] at hold
    exact Except.ok.inj hold
  obtain ⟨hyes, hno⟩ := h.put_overwrite hadm hfind
  constructor
  -- where the record does not fit, Put fails or the old value stays
  · rintro ⟨s', hrun, hnew, -⟩
    by_contra hnot
    rcases hno hnot with ⟨err, s'', herr⟩ | ⟨hne, _, s'', hrun', t', O', hsame, hwf⟩
    · rw [hrun] at herr
      cases (Prod.mk.inj herr).1
    · obtain rfl : s' = s'' := (Prod.mk.inj (hrun.symm.trans hrun')).2
      rw [hwf.lookup key, hsame, hfind] at hnew
      have hvalue := Option.some.inj (Except.ok.inj hnew)
      exact hne (congrArg Prod.fst hvalue)
  -- where it fits, the new record stands in the place of the old one
  · intro hfits
    obtain ⟨_, s', hrun, A, B, t', O', hold', hnew, hA, hwf⟩ := hyes hfits
    obtain ⟨h1, h2⟩ : find key (A ++ (key, value, isBucket) :: B) = some (value, isBucket) ∧
        ∀ k ≠ key, find k (A ++ (key, value, isBucket) :: B) =
          find k (A ++ (key, old, isBucket) :: B) :=
      find_replace hA
    refine ⟨s', hrun, ?_, fun k hk => ?_⟩
    · rw [hwf.lookup key, hnew, h1]
    · rw [hwf.lookup k, h.lookup k, hnew, hold', h2 k hk]

/-! ## A full leaf -/

section Example

/-- A leaf with 19 bytes left. -/
def fullLeaf : Tree 0 :=
  .leaf 2 1 [⟨[1], List.replicate 100 0, false, 0⟩, ⟨[2], List.replicate 90 0, false, 0⟩,
    ⟨[3], [0, 0], false, 0⟩]

/-- A transaction that has just begun on the file with this leaf. -/
def fullLeafState : TxState := layout 256 freshMeta 2 fullLeaf.nodes

theorem wellFormed_fullLeaf (b : ℕ) (hb : b ≤ 1000) :
    WellFormed (layoutScope smallEnv smallEnv_ok freshMeta 1) b (.tree fullLeaf) 0 fullLeafState :=
  wellFormed_layout (t := fullLeaf)
    (by decide) (by decide) (by decide) (by decide)
      (by unfold kPageMaxCount; show 1 + 2 + b ≤ _; omega)

theorem lowerBound_fullLeaf :
    BTree.lowerBound smallEnv [3] fullLeafState = (.ok ⟨[(2, 2)], .kEq⟩, fullLeafState) := rfl

/-- A short value fits in place of another one. -/
theorem put_overwrites_short : ∃ s', BTree.put smallEnv [3] [1] false fullLeafState = (.ok (), s') ∧
    (BTree.lookup smallEnv [3] s').1 = .ok (some ([1], false)) ∧
    ∀ k ≠ [3], (BTree.lookup smallEnv k s').1 = (BTree.lookup smallEnv k fullLeafState).1 :=
  (put_overwrites_iff (b := 0) (wellFormed_fullLeaf _ (by decide))
    (admissible_small (by decide) (by decide)) rfl).2
    ⟨2, 2, [], .kEq, _, _, lowerBound_fullLeaf, rfl, rfl, by decide⟩

/-- **The overwrite law fails.** A value of 100 bytes does not fit, and the old one stays. -/
theorem put_not_overwrites : ∃ (Γ : Scope) (b : ℕ) (t : Shape) (O : Multiset Obj) (s : TxState)
    (key value old : Bytes) (isBucket : Bool),
    WellFormed Γ (b + t.overwriteRoom Γ.P key value) t O s ∧ Admissible Γ.P key value ∧
      (BTree.lookup Γ.env key s).1 = .ok (some (old, isBucket)) ∧
      ¬ ∃ s', BTree.put Γ.env key value isBucket s = (.ok (), s') ∧
        (BTree.lookup Γ.env key s').1 = .ok (some (value, isBucket)) ∧
        ∀ k ≠ key, (BTree.lookup Γ.env k s').1 = (BTree.lookup Γ.env k s).1 := by
  have hwf := wellFormed_fullLeaf
    (0 + (Shape.tree fullLeaf).overwriteRoom 256 [3] (List.replicate 100 1)) (by decide)
  have hadm : Admissible 256 [3] (List.replicate 100 1) := admissible_small (by decide) (by decide)
  refine ⟨_, 0, .tree fullLeaf, 0, fullLeafState, [3], List.replicate 100 1, [0, 0],
    false, hwf, hadm, rfl, ?_⟩
  rintro ⟨s', hrun, hnew, -⟩
  have hnot : ¬ BTree.OverwriteFits smallEnv [3] (List.replicate 100 1) fullLeafState := by
    rintro ⟨pgid, slotId, rest, status, n, slot, hlower, hn, hslot, hfits⟩
    rw [lowerBound_fullLeaf] at hlower
    obtain ⟨rfl, rfl⟩ := Prod.mk.inj (List.cons.inj (congrArg BTreeIterator.stack
      (Except.ok.inj (Prod.mk.inj hlower).1))).1
    obtain rfl := Page.node.inj hn
    obtain rfl := Option.some.inj hslot
    revert hfits
    decide
  rcases (hwf.put_overwrite hadm
    (show find [3] (Shape.tree fullLeaf).contents = some ([0, 0], false) from rfl)).2 hnot with
    ⟨err, s'', herr⟩ | ⟨-, _, s'', hrun', t', O', hsame, hwf'⟩
  · cases (Prod.mk.inj (hrun.symm.trans herr)).1
  · obtain rfl : s' = s'' := (Prod.mk.inj (hrun.symm.trans hrun')).2
    rw [hwf'.lookup [3], hsame] at hnew
    have hvalue : find [3] (Shape.tree fullLeaf).contents = some ([0, 0], false) := rfl
    rw [hvalue] at hnew
    exact absurd (Except.ok.inj hnew) (by decide)

end Example

end AtomKV

import AtomKV.Node
import AtomKV.PagerBytes
import AtomKV.Lib.Runs

/-!
# What a root page stands for

A version of the database is a root page id and the pages of the file. `snapshot` lists the records
that the iteration of a view visits, and `Reachable` are the pages it looks at: nodes, and the
overflow pages of their records. Both depend on the reachable pages alone.
-/

set_option autoImplicit false

namespace AtomKV

/-- Pages as the readers see them. -/
def Pager.ofPages (pages : Nat → Page) : Pager := ⟨pages, [], [], []⟩

/-- The subtrees of a node. -/
def Node.subtrees (n : Node) : List Nat := if n.isBranch then n.kids else []

/-- The overflow pages of a slot's record. -/
def Node.slotRun (P : Nat) (n : Node) (slot : Slot) : PagePair :=
  match slot.record with
  | .inlined _ => (0, 0)
  | .overflow pgid =>
    (pgid, Pager.getPageCount P (slot.keySize + if n.isBranch then 0 else slot.word))

/-- A record as the iterator returns it. -/
def Node.slotData (P : Nat) (pages : Nat → Page) (slot : Slot) : Bytes × Bytes × Bool :=
  (Node.slotKey P (Pager.ofPages pages) slot, Node.slotValue P (Pager.ofPages pages) slot,
    slot.isBucket)

/-- The records below a page, at most `depth` levels down. -/
def snapshotBelow (P : Nat) (pages : Nat → Page) : Nat → Nat → List (Bytes × Bytes × Bool)
  | 0, _ => []
  | depth + 1, pgid => match pages pgid with
    | .raw _ => []
    | .node n =>
        if n.isBranch then n.subtrees.flatMap (snapshotBelow P pages depth)
        else n.slots.map (Node.slotData P pages)

/-- The records of the version with this root; the iterator's stack bounds the depth. -/
def snapshot (P : Nat) (pages : Nat → Page) (root : Nat) : List (Bytes × Bytes × Bool) :=
  if root = kPageInvalidId then [] else snapshotBelow P pages kStackSize root

/-- The node pages of the version with this root. -/
inductive Visits (pages : Nat → Page) (root : Nat) : Nat → Prop where
  | root (h : root ≠ kPageInvalidId) : Visits pages root root
  | child {p x : Nat} {n : Node} (hp : Visits pages root p) (hn : pages p = .node n)
      (hx : x ∈ n.subtrees) :
      Visits pages root x

/-- All pages of the version with this root. -/
def Reachable (P : Nat) (pages : Nat → Page) (root p : Nat) : Prop :=
  Visits pages root p ∨ ∃ q n slot, Visits pages root q ∧ pages q = .node n ∧ slot ∈ n.slots ∧
    0 < runCount (n.slotRun P slot) p

/-! ## Only reachable pages matter -/

section Congr

variable {P : Nat} {pages pages' : Nat → Page} {root : Nat}

theorem Visits.congr (h : ∀ p, Visits pages root p → pages' p = pages p) {p : Nat}
    (hp : Visits pages root p) : Visits pages' root p := by
  induction hp with
  | root hr => exact .root hr
  | child hp hn hx ih => exact .child ih ((h _ hp).trans hn) hx

theorem Visits.congr_back (h : ∀ p, Visits pages root p → pages' p = pages p) {p : Nat}
    (hp : Visits pages' root p) : Visits pages root p := by
  induction hp with
  | root hr => exact .root hr
  | child hp hn hx ih => exact .child ih ((h _ ih).symm.trans hn) hx

theorem reachable_congr (h : ∀ p, Reachable P pages root p → pages' p = pages p) (p : Nat) :
    Reachable P pages' root p ↔ Reachable P pages root p := by
  have hvisits : ∀ q, Visits pages root q → pages' q = pages q := fun q hq => h q (.inl hq)
  constructor
  · rintro (hp | ⟨q, n, slot, hq, hn, hslot, hrun⟩)
    · exact .inl (Visits.congr_back hvisits hp)
    · have hq' := Visits.congr_back hvisits hq
      exact .inr ⟨q, n, slot, hq', (hvisits q hq').symm.trans hn, hslot, hrun⟩
  · rintro (hp | ⟨q, n, slot, hq, hn, hslot, hrun⟩)
    · exact .inl (Visits.congr hvisits hp)
    · exact .inr ⟨q, n, slot, Visits.congr hvisits hq, (hvisits q hq).trans hn, hslot, hrun⟩

theorem slotData_congr (hP : 0 < P) {n : Node} {slot : Slot} (hleaf : n.isBranch = false)
    (h : ∀ p, 0 < runCount (n.slotRun P slot) p → pages' p = pages p) :
    Node.slotData P pages' slot = Node.slotData P pages slot := by
  unfold Node.slotData Node.slotKey Node.slotValue
  unfold Node.slotRun at h
  cases hrecord : slot.record with
  | inlined bytes => rfl
  | overflow pgid =>
    simp only [hrecord, hleaf, Bool.false_eq_true, if_false] at h
    have hread : ∀ k, k ≤ slot.keySize + slot.word →
        Pager.readBytes P (Pager.ofPages pages') pgid k =
          Pager.readBytes P (Pager.ofPages pages) pgid k := by
      intro k hk
      refine Pager.readBytes_congr hP fun p h1 h2 => h p ((runCount_pos_iff _ _).2 ⟨h1, ?_⟩)
      have := Pager.getPageCount_mono hP hk
      show p < pgid + Pager.getPageCount P (slot.keySize + slot.word)
      omega
    simp only [hread _ (Nat.le_refl _), hread _ (Nat.le_add_right _ _)]

theorem snapshotBelow_congr (hP : 0 < P) (h : ∀ p, Reachable P pages root p → pages' p = pages p)
    (depth : Nat) {pgid : Nat} (hp : Visits pages root pgid) :
    snapshotBelow P pages' depth pgid = snapshotBelow P pages depth pgid := by
  induction depth generalizing pgid with
  | zero => rfl
  | succ depth ih =>
    unfold snapshotBelow
    rw [h pgid (.inl hp)]
    cases hn : pages pgid with
    | raw bytes => rfl
    | node n =>
      by_cases hbranch : n.isBranch = true
      · simp only [hbranch, if_true]
        exact List.flatMap_congr fun x hx => ih (.child hp hn hx)
      · simp only [hbranch]
        refine List.map_congr_left fun slot hslot => slotData_congr hP (by simpa using hbranch)
          fun p hrun => ?_
        exact h p (.inr ⟨pgid, n, slot, hp, hn, hslot, hrun⟩)

/-- A version is read the same as long as its pages are. -/
theorem snapshot_congr (hP : 0 < P) (h : ∀ p, Reachable P pages root p → pages' p = pages p) :
    snapshot P pages' root = snapshot P pages root := by
  unfold snapshot
  by_cases hroot : root = kPageInvalidId
  · rw [if_pos hroot, if_pos hroot]
  · rw [if_neg hroot, if_neg hroot]
    exact snapshotBelow_congr hP h _ (.root hroot)

end Congr

end AtomKV

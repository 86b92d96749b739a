import AtomKV.Rebalancing
import AtomKV.BranchRefinement

/-!
# The balancing of two leaves

After a deletion that leaves less than two fifths of a leaf, `BTree::Delete` looks at the next
leaf of the same branch, or at the one before the last. The leaf takes a record from its
sibling, and the branch a new separator, or the two are merged and the branch loses the
separator. `leafStep_rebalances_iff` says what this leaves of the records, the separators and
the other children. A separator in overflow pages is replaced in place only as long as no
compaction is needed.
-/

set_option autoImplicit false

namespace AtomKV

/-! ## The step -/

/-- How the step ends: the branch has a new separator, or no room for it, or the two leaves are one.
-/
inductive LeafStep where
  | moved
  | refused (parentSlotId left right : Nat) (newKey : Bytes)
  | merged
  deriving DecidableEq

namespace BTree

/-- The new separator is stored, with the child on its left as it was. -/
def updateSeparator (env : Env) (parent parentSlotId : Nat) (newKey : Bytes) : TxM Bool := do
  let child ← BranchNode.getLeftChild parent parentSlotId
  BranchNode.update env parent parentSlotId newKey child false

/-- A record of the sibling goes to `node`, and the separator follows. -/
def moveRecord (env : Env) (parent parentSlotId node sibling count : Nat) (leftSibling : Bool) :
    TxM LeafStep := do
  let newKey ← rotateLeaf env node sibling count leftSibling
  let success ← updateSeparator env parent parentSlotId newKey
  let left := if leftSibling then sibling else node
  let right := if leftSibling then node else sibling
  return if success then .moved else .refused parentSlotId left right newKey

/-- The two leaves become one, and the separator goes. -/
def mergeSiblings (env : Env) (parent parentSlotId node sibling : Nat) (leftSibling : Bool) :
    TxM LeafStep := do
  let left := if leftSibling then sibling else node
  let right := if leftSibling then node else sibling
  mergeLeaf env left right
  BranchNode.delete env parent parentSlotId true
  return .merged

/-- The part of `BTree::Delete` that writes to the leaf, its sibling and their parent. -/
def leafStep (env : Env) (front : Nat × Nat) (node : Nat) : TxM LeafStep := do
  let (parentSlotId, sibling, leftSibling) ← getSibling front
  let sibling ← copySibling env front.1 parentSlotId sibling leftSibling
  let rate ← Node.fillRate env sibling
  let count ← Node.countOf sibling
  if Node.rateGt rate 1 2 ∧ 2 ≤ count then
    moveRecord env front.1 parentSlotId node sibling count leftSibling
  else mergeSiblings env front.1 parentSlotId node sibling leftSibling

/-- The balancing of a branch that has lost a separator. -/
def balanceUp (env : Env) : List (Nat × Nat) → (node : Nat) → TxM Unit
  | [], node => do
      let count ← Node.countOf node
      if count = 0 then do
        let s ← Exec.read
        assert (node = s.rootPgid)
        let tail ← BranchNode.getTailChild node
        Exec.change fun s => { s with rootPgid := tail }
        Pager.free node 1
  | front :: rest, node => do
      let rate ← Node.fillRate env node
      if Node.rateGe rate 2 5 then return () else balanceBranch env front rest node

/-- What `BTree::Delete` does after the step. -/
def afterStep (env : Env) (front : Nat × Nat) (rest : List (Nat × Nat)) : LeafStep → TxM Unit
  | .moved => return ()
  | .refused parentSlotId left right newKey => reinsert env front.1 parentSlotId
      rest left right newKey
  | .merged => balanceUp env rest front.1

theorem deleteBranch_eq (env : Env) (rest : List (Nat × Nat)) (node leftDelSlotId : Nat) :
    deleteBranch env rest node leftDelSlotId = (do
      BranchNode.delete env node leftDelSlotId true
      balanceUp env rest node) := by
  cases rest with
  | nil => rfl
  | cons front rest => exact deleteBranch_cons env front rest node leftDelSlotId

/-- **The step is the first part of the balancing.** -/
theorem balanceLeaf_eq (env : Env) (front : Nat × Nat) (rest : List (Nat × Nat)) (node : Nat) :
    balanceLeaf env front rest node = (do
      let step ← leafStep env front node
      afterStep env front rest step) := by
  unfold balanceLeaf leafStep
  rw [bind_assoc]
  refine bind_congr fun r => ?_
  obtain ⟨parentSlotId, sibling, leftSibling⟩ := r
  simp only [bind_assoc]
  refine bind_congr fun sibling => bind_congr fun rate => bind_congr fun count => ?_
  split
  · unfold replaceSeparator moveRecord updateSeparator
    simp only [bind_assoc, pure_bind]
    refine bind_congr fun newKey => bind_congr fun child => bind_congr fun success => ?_
    cases success with
    | true => rfl
    | false => rfl
  · unfold mergeSiblings
    simp only [bind_assoc, pure_bind, deleteBranch_eq]
    rfl

end BTree

/-! ## What is read of the branch -/

/-- The reading functions return these keys and children of a branch, whatever its header says. -/
structure BranchReads (env : Env) (pgid : Nat) (fence : Fence) (s : TxState) : Prop where
  length : fence.kids.length = fence.keys.length + 1
  count : Node.countOf pgid s = (.ok fence.keys.length, s)
  key : ∀ i key, fence.keys[i]? = some key → Node.getKey env pgid i s = (.ok key, s)
  leftChild : ∀ i c, fence.kids[i]? = some c → BranchNode.getLeftChild pgid i s = (.ok c, s)

theorem BranchShows.reads {env : Env} {pgid : Nat} {fence : Fence} {s : TxState}
    (h : BranchShows env pgid fence s) :
    BranchReads env pgid fence s := ⟨h.length, h.count, h.key, h.leftChild⟩

namespace Own

variable {Γ : PageScope} {b r : ℕ} {O : Multiset Obj} {s s' : TxState} {q : Nat} {es : List Entry}
  {kids : List Nat} {n : Node}

/-- A page with these slots, and the overflow pages of its keys. -/
theorem branchReads (h : Own Γ b r (.page q (.node n) ::ₘ (recordsOf Γ.P es + O)) s)
    (hlists : n.Lists Γ.P es kids) : BranchReads Γ.env q ⟨keysOf es, kids⟩ s := by
  have hcount : n.slots.length = es.length := by
    have := congrArg List.length hlists.heads
    rwa [List.length_map, List.length_map] at this
  have hstored : ∀ e ∈ es, e.Stored Γ.P s.pager := by
    intro e he hover
    have hrun := h.rep (.run e.run (e.key ++ e.value)) (Multiset.mem_cons_of_mem (Multiset.mem_add.2
      (.inl ((mem_recordsOf Γ.P).2 ⟨e, he, hover, rfl⟩))))
    rw [Entry.size, ← List.length_append]
    exact hrun
  constructor
  · rw [← hlists.words]
    simp [keysOf, hcount]
  · unfold Node.countOf
    rw [Exec.bind_of_ok h.getNode]
    show (Except.ok n.slots.length, s) = _
    rw [hcount]
    simp [keysOf]
  · intro i key hi
    unfold keysOf at hi
    rw [List.getElem?_map] at hi
    obtain ⟨e, he, rfl⟩ := Option.map_eq_some_iff.1 hi
    exact getKey_of_heads Γ.P_pos h.getNode hlists.heads hstored he
  · intro i c hc
    exact getLeftChild_of_words h.getNode hlists.words hc

/-- A node beside what a function works on keeps its page. -/
theorem page_eq {α : Type} {f : TxM α} {A : Multiset Obj} {a : α} {v : NodeView}
    (h : Own Γ b r (A + (.node q v ::ₘ O)) s) (hrun : f s = (.ok a, s'))
    (hall : ∀ O, Own Γ b r (A + O) s → Exec.Ok f s fun _ s' => ∃ b' B, Own Γ b' r (B + O) s') :
    s'.pager.pages q = s.pager.pages q := by
  have h₀ : Own Γ b r (.node q v ::ₘ (A + O)) s := h.perm (Multiset.add_cons _ _ _)
  obtain ⟨n, -, h₁⟩ := h₀.unfold_node
  obtain ⟨b', B, h₂⟩ := (hall (.page q (.node n) ::ₘ (recordsOf Γ.P v.entries + O)) (h₁.perm (by
    simp only [← Multiset.singleton_add]
    abel))).eq_of_eq hrun
  rw [h₁.rep _ (Multiset.mem_cons_self _ _)]
  exact h₂.rep (.page q (.node n)) (Multiset.mem_add.2 (.inr (Multiset.mem_cons_self _ _)))

end Own

/-! ## What the step should leave -/

/-- The keys and children of a branch, with others in the gap. -/
def Frame.fence {d : ℕ} (g : Frame d) (keys : List Bytes) (kids : List Nat) : Fence :=
  ⟨keysOf g.esL ++ (keys ++ keysOf g.esR), g.ksL.map Tree.pgid ++ (kids ++ g.ksR.map Tree.pgid)⟩

/-- Two leaves show the rows, neither of them is empty, and `key` separates them. -/
def LeavesApart (env : Env) (left right : Nat) (key : Bytes) (rows : List Row)
    (s : TxState) : Prop :=
  ∃ rowsL rowsR, LeafShows env left rowsL s ∧ LeafShows env right rowsR s ∧ rowsL ≠ [] ∧
    rowsR ≠ [] ∧ rowsL ++ rowsR = rows ∧ (∀ row ∈ rowsL, env.comparator row.1 key = .lt) ∧
      ∀ row ∈ rowsR, env.comparator row.1 key ≠ .lt

/-- The rows of the two leaves are in two leaves with a separator between them, or in one
leaf without. -/
def LeafStep.Leaves (env : Env) (g : Frame 0) (rows : List Row) (s : TxState) : LeafStep → Prop
  | .moved => ∃ left right key, BranchReads env g.pgid (g.fence [key] [left, right]) s ∧
      LeavesApart env left right key rows s
  | .merged => ∃ leaf, BranchReads env g.pgid (g.fence [] [leaf]) s ∧
      LeafShows env leaf rows s ∧ rows ≠ []
  | .refused .. => False

/-- What the step should do to the branch `g` and two leaves with the rows between its other
children. -/
structure Rebalances (env : Env) (g : Frame 0) (rows : List Row) (s s' : TxState)
    (step : LeafStep) : Prop where
  leaves : step.Leaves env g rows s'
  pages : ∀ t ∈ g.ksL ++ g.ksR, s'.pager.pages t.pgid = s.pager.pages t.pgid
  others : ∀ t ∈ g.ksL ++ g.ksR, LeafShows env t.pgid (rowsOf t.entries) s'

/-- The key that takes the place of the separator when a record moves between two leaves: the right
leaf's first key. -/
def Joint.leafKey (j : Joint) : Bytes :=
  ((if j.isLeft then j.sibling.getLast? else j.sibling[1]?).map Entry.key).getD []

/-- The rows of a leaf and its sibling, in order. -/
def Joint.rows (j : Joint) (es : List Entry) : List Row :=
  rowsOf (j.first es j.sibling ++ j.second es j.sibling)

/-- Pages that the step can take. -/
def Joint.leafRoom (P : Nat) (j : Joint) (es : List Entry) : ℕ :=
  2 + (entriesPages P es + entriesPages P j.sibling)

/-- A leaf in the page `p` is less than two fifths full. It is a child of the branch `f`, in which
`k` is its sibling. -/
structure Underfull (Γ : Scope) (f : Frame 0) (j : Joint) (g : Frame 0) (k : Tree 0) (p : Nat)
    (es : List Entry) : Prop where
  beside : f.Beside j g k
  parent : ¬ Γ.keep f.pgid
  leaf : ¬ Γ.keep p
  safe : k.Safe Γ.need Γ.keep
  short : 5 * fill Γ.P es < 2 * (Γ.P - 18)
  sibling_ne : j.sibling ≠ []
  sorted : KeysSorted Γ.env.comparator (j.first es j.sibling ++ j.second es j.sibling)

/-! ## The sibling is found and made writable -/

section Step

variable {Γ : Scope} {b r : ℕ} {O : Multiset Obj} {s : TxState} {f g : Frame 0} {j : Joint}
  {k : Tree 0} {p tp : Nat} {es : List Entry} {n : Node}

/-- The parent's numbers stay when the sibling is copied, since only a child changes. -/
theorem copySibling_ledger {x : Nat} (h : Own Γ (b + 1) r (f.obj x ::ₘ .node k.pgid k.view ::ₘ O) s)
    (hn : s.pager.pages f.pgid = .node n) {slotId q : Nat} {leftSibling : Bool} {s' : TxState}
    (hrun : BTree.copySibling Γ.env f.pgid slotId k.pgid leftSibling s = (.ok q, s')) :
    ∃ n', s'.pager.pages f.pgid = .node n' ∧ n'.ledger = n.ledger := by
  have hm : Obj.node k.pgid k.view ∈ f.obj x ::ₘ .node k.pgid k.view ::ₘ O :=
    Multiset.mem_cons_of_mem (Multiset.mem_cons_self _ _)
  obtain ⟨m, -, hget, -⟩ := h.read_of_mem hm
  obtain ⟨n₀, hrep, hown⟩ := h.unfold_node
  obtain rfl : n = n₀ := Page.node.inj (hn.symm.trans (hown.rep _ (Multiset.mem_cons_self _ _)))
  have hleaf : n.isLeaf = false := hrep.isLeaf_eq
  unfold BTree.copySibling at hrun
  rw [Exec.bind_of_ok hget, Exec.read_bind] at hrun
  -- Only a sibling that was copied is entered into the parent again.
  split at hrun
  · obtain ⟨q', s₁, hcopy, -, -, h₁, -⟩ := Own.copy (q := k.pgid) (v := k.view)
      (O := .page f.pgid (.node n) ::ₘ (recordsOf Γ.P (f.esL ++ f.esR) + O)) (hown.perm (by
        show _ ::ₘ (recordsOf Γ.P (f.esL ++ f.esR) + _) = _
        simp only [← Multiset.singleton_add]
        abel))
    have hpage : s₁.pager.pages f.pgid = .node n :=
      h₁.rep (.page f.pgid (.node n)) (Multiset.mem_cons_of_mem (Multiset.mem_cons_self _ _))
    have hat : BranchAt f.pgid n.ledger s₁ := ⟨n, hpage, hleaf, rfl⟩
    rw [Exec.bind_of_ok hcopy] at hrun
    have hkept : BranchAt f.pgid n.ledger s' := by
      cases leftSibling with
      | true =>
        obtain ⟨u, s₂, hset, hreturn⟩ := Exec.bind_eq_ok hrun
        obtain rfl := (Prod.mk.inj hreturn).2
        have hkeeps : Exec.Keeps (BranchAt f.pgid n.ledger)
            (BranchNode.setLeftChild f.pgid slotId q') fun _ => True :=
          BranchAt.setLeftChild
        have := (hkeeps s₁ hat).1
        rwa [hset] at this
      | false =>
        obtain ⟨u, s₂, hset, hreturn⟩ := Exec.bind_eq_ok hrun
        obtain rfl := (Prod.mk.inj hreturn).2
        have hkeeps : Exec.Keeps (BranchAt f.pgid n.ledger)
            (BranchNode.setLeftChild f.pgid (slotId + 1) q') fun _ => True :=
          BranchAt.setLeftChild
        have := (hkeeps s₁ hat).1
        rwa [hset] at this
    obtain ⟨n', hn', -, hledger⟩ := hkept
    exact ⟨n', hn', hledger⟩
  · obtain rfl := (Prod.mk.inj hrun).2
    exact ⟨n, hn, rfl⟩

/-- A branch with the same numbers has the same room below its records. -/
theorem Node.roomBelow_of_ledger {n n' : Node} (h : n'.ledger = n.ledger) (size : Nat) :
    n'.RoomBelow size ↔ n.RoomBelow size := by
  have hoffset : n'.dataOffset = n.dataOffset := congrArg Ledger.dataOffset h
  have hcount : n'.count = n.count := by
    have := congrArg (fun a => a.cells.length) h
    simp only [Node.ledger, List.length_map] at this
    exact this
  unfold Node.RoomBelow Node.slotBytes
  rw [hoffset, hcount]

/-- The first half of the step. -/
theorem leafStep_begin (hu : Underfull Γ f j g k p es) (hn : s.pager.pages f.pgid = .node n)
    (h : Own Γ (b + 1) r (f.obj p ::ₘ .node p (.leaf tp es) ::ₘ .node k.pgid k.view ::ₘ O) s) :
    ∃ q tk s₁ n₁, ¬ Γ.keep q ∧
        Own Γ b r (g.two j.separator (j.first p q) (j.second p q) ::ₘ .node p (.leaf tp es) ::ₘ
        .node q (.leaf tk j.sibling) ::ₘ O) s₁ ∧
      s₁.pager.pages g.pgid = .node n₁ ∧ n₁.ledger = n.ledger ∧
      BTree.leafStep Γ.env (f.pgid, f.esL.length) p s =
        (if j.Lends Γ.P then BTree.moveRecord Γ.env g.pgid j.left.length p q j.sibling.length
          j.isLeft else BTree.mergeSiblings Γ.env g.pgid j.left.length p q j.isLeft) s₁ := by
  have h₀ : Own Γ (b + 1) r (f.obj p ::ₘ .node k.pgid k.view ::ₘ .node p (.leaf tp es) ::ₘ O) s :=
    h.perm (congrArg (f.obj p ::ₘ ·) (Multiset.cons_swap _ _ _))
  have hsibling := getSibling_ok hu.beside h₀ (Multiset.mem_cons_self _ _)
  obtain ⟨q, s₁, hcopy, tk, hq, -, h₁⟩ := copySibling_ok hu.beside hu.parent hu.safe h₀
  obtain ⟨n₁, hn₁, hledger⟩ := copySibling_ledger h₀ hn hcopy
  have hview : (k.moved q tk).view = .leaf tk j.sibling := by
    rw [← hu.beside.sibling_eq]
    rfl
  rw [hview] at h₁
  have hm : Obj.node q (.leaf tk j.sibling) ∈ g.two j.separator (j.first p q) (j.second p q) ::ₘ
      .node q (.leaf tk j.sibling) ::ₘ .node p (.leaf tp es) ::ₘ O :=
        Multiset.mem_cons_of_mem (Multiset.mem_cons_self _ _)
  refine ⟨q, tk, s₁, n₁, hq, h₁.perm (congrArg (_ ::ₘ ·) (Multiset.cons_swap _ _ _)),
    ?_, hledger, ?_⟩
  · rw [hu.beside.pgid_eq]
    exact hn₁
  · unfold BTree.leafStep
    rw [Exec.bind_of_ok hsibling, hu.beside.pgid_eq]
    show (BTree.copySibling Γ.env f.pgid j.left.length k.pgid j.isLeft >>= _) s = _
    rw [Exec.bind_of_ok hcopy, Exec.bind_of_ok (h₁.fillRate hm), Exec.bind_of_ok (h₁.countOf hm)]
    -- the test of the code, more than half filled and two records, is `Lends`
    have htest : (Node.rateGt (fill Γ.P j.sibling, Γ.P - 18) 1 2 ∧ 2 ≤ j.sibling.length) ↔
        j.Lends Γ.P := by
      unfold Node.rateGt Joint.Lends
      rw [one_mul]
    by_cases hlends : j.Lends Γ.P
    · rw [if_pos hlends]
      exact congrFun (if_pos (htest.2 hlends)) s₁
    · rw [if_neg hlends]
      exact congrFun (if_neg fun hno => hlends (htest.1 hno)) s₁

/-! ## A record moves -/

/-- After the move both leaves have records, and the new separator is the first key of the right
one. -/
theorem rotateLeaf_rows {q tk : Nat} (hp : ¬ Γ.keep p) (hq : ¬ Γ.keep q)
    (hshort : 5 * fill Γ.P es < 2 * (Γ.P - 18)) (hlends : j.Lends Γ.P)
    (h : Own Γ (b + entriesPages Γ.P j.sibling) r
      (.node p (.leaf tp es) ::ₘ .node q (.leaf tk j.sibling) ::ₘ O) s) :
    Exec.Ok (BTree.rotateLeaf Γ.env p q j.sibling.length j.isLeft) s fun key s' => ∃ L e R tl tr G,
      key = j.leafKey ∧ e.key = key ∧ L ≠ [] ∧ rowsOf (L ++ e :: R) = j.rows es ∧ JunkOnly G ∧
      Own Γ b r (.node (j.first p q) (.leaf tl L) ::ₘ .node (j.second p q) (.leaf tr (e :: R)) ::ₘ
        (G + O)) s' := by
  obtain ⟨-, htwo⟩ := hlends
  have hhalf : 2 * fill Γ.P es ≤ Γ.P - 18 := by omega
  obtain ⟨left, separator, right, sibling, isLeft⟩ := j
  -- From the left the last record moves, from the right the first one and its successor becomes the
  -- separator.
  cases isLeft with
  | true =>
    obtain rfl | ⟨S, w, rfl⟩ := List.eq_nil_or_concat' sibling
    · exact absurd htwo (Nat.not_succ_le_zero 1)
    have hpages : w.pages Γ.P ≤ entriesPages Γ.P (S ++ [w]) := by simp
    obtain ⟨s', run, G, hrun, hG, h'⟩ :=
      (h.room_mono (b + w.pages Γ.P) (Nat.add_le_add_left hpages b)).rotateLeaf_left hp hq hhalf
    have hS : S ≠ [] := by
      rintro rfl
      exact absurd htwo (Nat.not_succ_le_self 1)
    refine Exec.Ok.intro w.key s' hrun
      ⟨S, { w with run := run }, es, tk, tp, G, ?_, rfl, hS, ?_, hG, h'.perm ?_⟩
    · simp [Joint.leafKey]
    · show rowsOf _ = rowsOf ((S ++ [w]) ++ es)
      rw [List.append_assoc]
      simp [rowsOf, Entry.data]
    · exact Multiset.cons_swap _ _ _
  | false =>
    obtain ⟨w, v, S, rfl⟩ : ∃ w v S, sibling = w :: v :: S := by
      cases sibling with
      | nil => exact absurd htwo (by simp)
      | cons w S =>
        cases S with
        | nil => exact absurd htwo (by simp)
        | cons v S => exact ⟨w, v, S, rfl⟩
    have hpages : w.pages Γ.P ≤ entriesPages Γ.P (w :: v :: S) := by simp
    obtain ⟨s', run, G, hrun, hG, h'⟩ :=
      (h.room_mono (b + w.pages Γ.P) (Nat.add_le_add_left hpages b)).rotateLeaf_right hp hq hhalf
    refine Exec.Ok.intro v.key s' hrun
      ⟨es ++ [{ w with run := run }], v, S, tp, tk, G, rfl, rfl, by simp, ?_, hG, h'.perm ?_⟩
    · show rowsOf _ = rowsOf (es ++ w :: v :: S)
      simp [rowsOf, Entry.data]
    · rfl

/-- Whether the keys are in order can be read off the rows. -/
theorem KeysSorted.of_rows {cmp : Bytes → Bytes → Ordering} {A B : List Entry}
    (h : KeysSorted cmp B) (hrows : rowsOf A = rowsOf B) : KeysSorted cmp A := by
  have hB : (rowsOf B).Pairwise fun row row' => cmp row.1 row'.1 = .lt := List.pairwise_map.2 h
  rw [← hrows] at hB
  exact List.pairwise_map.1 hB

/-- Records in order around a separator that is one of their keys. -/
theorem LeavesApart.of_sorted {env : Env} (hok : env.Ok) {left right : Nat} {L R : List Entry}
    {e : Entry} (hL : L ≠ []) (hsorted : KeysSorted env.comparator (L ++ e :: R))
    (hl : LeafShows env left (rowsOf L) s) (hr : LeafShows env right (rowsOf (e :: R)) s) :
    LeavesApart env left right e.key (rowsOf (L ++ e :: R)) s := by
  have := hok.trans
  obtain ⟨-, hright, hbelow⟩ := List.pairwise_append.1 hsorted
  refine ⟨_, _, hl, hr, fun hnil => hL (List.map_eq_nil_iff.1 hnil), List.cons_ne_nil _ _,
    List.map_append.symm, ?_, ?_⟩
  · intro row hrow
    obtain ⟨a, ha, rfl⟩ := List.mem_map.1 hrow
    exact hbelow a ha e List.mem_cons_self
  · intro row hrow
    obtain ⟨a, ha, rfl⟩ := List.mem_map.1 hrow
    rcases List.mem_cons.1 ha with rfl | ha
    · exact Compare.irrefl a.key
    · exact Compare.not_lt_of_lt ((List.pairwise_cons.1 hright).1 a ha)

/-! ## The separator follows -/

/-- A child that is written where it is already. -/
theorem putChild_same {q child slotId : Nat} {es : List Entry} {kids : List Nat} (hq : ¬ Γ.keep q)
    (hlists : n.Lists Γ.P es kids) (hslot : slotId < es.length)
    (hchild : kids[slotId]? = some child) (h : Own Γ b r (.page q (.node n) ::ₘ O) s) :
    ∃ s', BranchNode.putChild q slotId child false s = (.ok (), s') ∧
      Own Γ b r (.page q (.node n) ::ₘ O) s' := by
  have hlen : n.slots.length = es.length := by
    have := congrArg List.length hlists.heads
    rwa [List.length_map, List.length_map] at this
  obtain ⟨slot, hget⟩ : ∃ slot, n.slots[slotId]? = some slot :=
    ⟨_, List.getElem?_eq_getElem (by omega)⟩
  have hword : slot.word = child := by
    rw [← hlists.words, List.getElem?_append_left (by rw [List.length_map]; omega),
      List.getElem?_map, hget] at hchild
    exact Option.some.inj hchild
  have hsame : n.slots.set slotId { slot with word := child } = n.slots := by
    obtain ⟨l₁, l₂, hl, rfl⟩ := ListAt.exists_split hget
    rw [hl, ListAt.set_length, ← hword]
  obtain ⟨s', hset, h'⟩ := h.setNode hq n
  refine ⟨s', ?_, h'⟩
  unfold BranchNode.putChild BranchNode.withLeftChild
  rw [if_neg Bool.false_ne_true, Exec.bind_of_ok h.getNode, getSlot_of_getElem? hget]
  show Pager.setNode q { n with slots := n.slots.set slotId { slot with word := child } } s = _
  rw [hsame]
  exact hset

/-- **The new separator in place of the old one.** -/
theorem updateSeparator_ok {left right : Nat} {u : Entry} {key : Bytes} (hg : ¬ Γ.keep g.pgid)
    (hadm : Admissible Γ.P key []) (hn : s.pager.pages g.pgid = .node n)
    (hfit : Fits Γ.P (g.esL ++ g.esR) key [])
    (h : Own Γ (b + recordPages Γ.P key []) r (g.two u left right ::ₘ O) s) :
    (¬ Node.maxInline Γ.P < u.size ∨ n.RoomBelow (recordStub Γ.P key []) →
      Exec.Ok (BTree.updateSeparator Γ.env g.pgid g.esL.length key) s fun success s' => success =
        true ∧ BranchReads Γ.env g.pgid (g.fence [key] [left, right]) s' ∧
          ∃ B, Own Γ b r (B + O) s') ∧
    (Node.maxInline Γ.P < u.size → ¬ n.RoomBelow (recordStub Γ.P key []) →
      Exec.Fails (BTree.updateSeparator Γ.env g.pgid g.esL.length key) s) := by
  have hlen : (g.ksL.map Tree.pgid).length = g.esL.length := by rw [List.length_map, g.lenL]
  have hkid : (g.ksL.map Tree.pgid ++ left :: right :: g.ksR.map Tree.pgid)[g.esL.length]? =
      some left := by
    rw [← hlen]
    simp
  have hchild : BranchNode.getLeftChild g.pgid g.esL.length s = (.ok left, s) :=
    h.getLeftChild (Multiset.mem_cons_self _ _) hkid
  have hfence : ∀ e : Entry, e.key = key → (⟨keysOf (g.esL ++ e :: g.esR),
      g.ksL.map Tree.pgid ++ left :: right :: g.ksR.map Tree.pgid⟩ : Fence) =
        g.fence [key] [left, right] := by
    rintro e rfl
    simp [Frame.fence, keysOf]
  unfold BTree.updateSeparator
  refine ⟨fun hgood => Exec.Ok.of_run_eq (Exec.bind_of_ok hchild) ?_, fun hover hroom => ?_⟩
  -- In overflow pages the old separator goes wrong in `space_used`, which readers do not look at.
  · by_cases hover : Node.maxInline Γ.P < u.size
    · have hroom := hgood.resolve_left (not_not.2 hover)
      obtain ⟨s₁, n', bucket, run, hrun, hlists, -, h₁⟩ :=
        h.branchUpdateKey_overwrites hg hadm hn hover hfit hroom
      have hslot : g.esL.length < (g.esL ++ ⟨key, [], bucket, run⟩ :: g.esR).length := by simp
      obtain ⟨s₂, hput, h₂⟩ := putChild_same hg hlists hslot hkid h₁
      refine Exec.Ok.intro true s₂ ?_ ⟨rfl, ?_, .page g.pgid (.node n') ::ₘ
        (recordsOf Γ.P (g.esL ++ ⟨key, [], bucket, run⟩ :: g.esR) + recordsOf Γ.P [u]), h₂.perm ?_⟩
      · rw [BranchNode.update_stored hrun, Exec.bind_of_ok hput]
        rfl
      · rw [← hfence ⟨key, [], bucket, run⟩ rfl]
        exact h₂.branchReads hlists
      · simp only [← Multiset.singleton_add]
        abel
    · obtain ⟨s₁, bucket, run, hrun, h₁⟩ := UpdatesSeparator.ok (.inr rfl) h hg hlen hadm hover hfit
      refine Exec.Ok.intro true s₁ hrun ⟨rfl, ?_, {_}, h₁.perm (Multiset.singleton_add _ _).symm⟩
      rw [← hfence ⟨key, [], bucket, run⟩ rfl]
      exact h₁.branchShows.reads
  · obtain ⟨s₁, n', herror, -⟩ := h.branchUpdateKey_error hg hn hover hfit hroom
    refine ⟨.assertion, s₁, (Exec.bind_of_ok hchild).trans ?_⟩
    unfold BranchNode.update
    exact Exec.bind_of_error herror

/-! ## The two ways -/

/-- The move of a record leaves the parent alone. -/
theorem rotateLeaf_page {q tk : Nat} {key : Bytes} {s' : TxState} (hp : ¬ Γ.keep p)
    (hq : ¬ Γ.keep q) (hshort : 5 * fill Γ.P es < 2 * (Γ.P - 18)) (hlends : j.Lends Γ.P)
    (h : Own Γ (b + entriesPages Γ.P j.sibling) r
      (.node p (.leaf tp es) ::ₘ .node q (.leaf tk j.sibling) ::ₘ O) s)
    (hrun : BTree.rotateLeaf Γ.env p q j.sibling.length j.isLeft s = (.ok key, s'))
    {a : Nat} {v : NodeView} (ha : Obj.node a v ∈ O) : s'.pager.pages a = s.pager.pages a := by
  obtain ⟨O, rfl⟩ := Multiset.exists_cons_of_mem ha
  have h₀ : Own Γ (b + entriesPages Γ.P j.sibling) r
      ({.node p (.leaf tp es), .node q (.leaf tk j.sibling)} + (.node a v ::ₘ O)) s :=
    h.perm (Rebalance.pair_add _ _ _).symm
  refine h₀.page_eq hrun fun O' hO => ?_
  have hmove := rotateLeaf_rows hp hq hshort hlends (hO.perm (Rebalance.pair_add _ _ _))
  refine hmove.imp fun _ s' hmoved => ?_
  obtain ⟨L, e, R, tl, tr, G, -, -, -, -, -, h'⟩ := hmoved
  refine ⟨b, .node (j.first p q) (.leaf tl L) ::ₘ .node (j.second p q) (.leaf tr (e :: R)) ::ₘ G,
    h'.perm ?_⟩
  rw [Multiset.cons_add, Multiset.cons_add]

/-- A record of the sibling goes to the leaf. -/
theorem moveRecord_ok {q tk : Nat} (hu : Underfull Γ f j g k p es) (hq : ¬ Γ.keep q)
    (hlends : j.Lends Γ.P) (hfit : Fits Γ.P (j.left ++ j.right) j.leafKey [])
    (hn : s.pager.pages g.pgid = .node n) (h : Own Γ (b + 1 + entriesPages Γ.P j.sibling) r
      (g.two j.separator (j.first p q) (j.second p q) ::ₘ
      .node p (.leaf tp es) ::ₘ .node q (.leaf tk j.sibling) ::ₘ O) s) :
    (¬ Node.maxInline Γ.P < j.separator.size ∨ n.RoomBelow (recordStub Γ.P j.leafKey []) →
      Exec.Ok (BTree.moveRecord Γ.env g.pgid j.left.length p q j.sibling.length j.isLeft)
        s fun step s' => step.Leaves Γ.env g (j.rows es) s' ∧ ∃ B, Own Γ b r (B + O) s') ∧
    (Node.maxInline Γ.P < j.separator.size → ¬ n.RoomBelow (recordStub Γ.P j.leafKey []) →
      Exec.Fails (BTree.moveRecord Γ.env g.pgid j.left.length p q j.sibling.length j.isLeft)
        s) := by
  have hg : ¬ Γ.keep g.pgid := by
    rw [hu.beside.pgid_eq]
    exact hu.parent
  rw [← hu.beside.left_eq, ← hu.beside.right_eq] at hfit
  have h₀ : Own Γ (b + 1 + entriesPages Γ.P j.sibling) r
      (.node p (.leaf tp es) ::ₘ .node q (.leaf tk j.sibling) ::ₘ
      g.two j.separator (j.first p q) (j.second p q) ::ₘ O) s := h.perm (by
    simp only [← Multiset.singleton_add]
    abel)
  -- First the record moves, and then the parent gets the new separator.
  obtain ⟨key, s₁, hrotate, L, e, R, tl, tr, G, rfl, hkey, hL, hrows, -, h₁⟩ :=
    rotateLeaf_rows hu.leaf hq hu.short hlends h₀
  have hn₁ : s₁.pager.pages g.pgid = .node n :=
    (rotateLeaf_page hu.leaf hq hu.short hlends h₀ hrotate (Multiset.mem_cons_self _ _)).trans hn
  have hadm : Admissible Γ.P j.leafKey [] := by
    rw [← hkey]
    exact h₁.key_admissible (Multiset.mem_cons_of_mem (Multiset.mem_cons_self _ _))
      List.mem_cons_self
  have h₂ : Own Γ (b + recordPages Γ.P j.leafKey []) r
      (g.two j.separator (j.first p q) (j.second p q) ::ₘ
      (.node (j.first p q) (.leaf tl L) ::ₘ .node (j.second p q) (.leaf tr (e :: R)) ::ₘ (G + O)))
        s₁ :=
    (h₁.room_mono _ (Nat.add_le_add_left (recordPages_le_one Γ.P_pos hadm) b)).perm (by
      simp only [← Multiset.singleton_add]
      abel)
  obtain ⟨hgood, hbad⟩ := updateSeparator_ok hg hadm hn₁ hfit h₂
  have hbegin : BTree.moveRecord Γ.env g.pgid j.left.length p q j.sibling.length j.isLeft s = (do
      let success ← BTree.updateSeparator Γ.env g.pgid g.esL.length j.leafKey
      return if success then .moved else .refused j.left.length (if j.isLeft then q else p)
        (if j.isLeft then p else q) j.leafKey : TxM LeafStep) s₁ := by
    unfold BTree.moveRecord
    rw [Exec.bind_of_ok hrotate, hu.beside.left_eq]
  refine ⟨fun hcase => ?_, fun hover hroom => ?_⟩
  · obtain ⟨success, s', hupdate, rfl, hreads, B, h'⟩ := hgood hcase
    have hl : Own Γ b r (.node (j.first p q) (.leaf tl L) ::ₘ
        (B + (.node (j.second p q) (.leaf tr (e :: R)) ::ₘ (G + O)))) s' :=
          h'.perm (Multiset.add_cons _ _ _)
    have hr : Own Γ b r (.node (j.second p q) (.leaf tr (e :: R)) ::ₘ
        (B + (.node (j.first p q) (.leaf tl L) ::ₘ (G + O)))) s' := h'.perm (by
      simp only [← Multiset.singleton_add]
      abel)
    -- The rows of both leaves together are those from before, so the separator parts them.
    have hapart := LeavesApart.of_sorted Γ.ok hL (hu.sorted.of_rows hrows) hl.leafShows hr.leafShows
    rw [hkey, hrows] at hapart
    refine Exec.Ok.intro .moved s' ?_ ⟨⟨j.first p q, j.second p q, j.leafKey, hreads, hapart⟩,
      B + (.node (j.first p q) (.leaf tl L) ::ₘ .node (j.second p q) (.leaf tr (e :: R)) ::ₘ G),
        h'.perm ?_⟩
    · rw [hbegin, Exec.bind_of_ok hupdate]
      rfl
    · simp only [← Multiset.singleton_add]
      abel
  · obtain ⟨err, s', herror⟩ := hbad hover hroom
    exact ⟨err, s', hbegin.trans (Exec.bind_of_error herror)⟩

/-- Two leaves of which one is short and the other does not lend are merged, whichever of them is
the left one. -/
theorem mergeLeaf_pair {q tk : Nat} (hp : ¬ Γ.keep p) (hq : ¬ Γ.keep q)
    (hshort : 5 * fill Γ.P es < 2 * (Γ.P - 18)) (hlends : ¬ j.Lends Γ.P)
    (h : Own Γ (b + (entriesPages Γ.P es + entriesPages Γ.P j.sibling)) r
      (.node p (.leaf tp es) ::ₘ .node q (.leaf tk j.sibling) ::ₘ O) s) :
    Exec.Ok (BTree.mergeLeaf Γ.env (j.first p q) (j.second p q)) s fun _ s' => ∃ tl M G,
      SameData M (j.first es j.sibling ++ j.second es j.sibling) ∧ JunkOnly G ∧
        Own Γ b r (.node (j.first p q) (.leaf tl M) ::ₘ (G + O)) s' := by
  have hhalf : 2 * fill Γ.P j.sibling ≤ Γ.P - 18 := half_of_not_lends Γ.hP hlends
  have hslots := slotFits_pair Γ.hP hshort hhalf
  have hslots' : SlotFits Γ.P (j.sibling ++ es) := by
    unfold SlotFits at hslots ⊢
    rw [List.length_append] at hslots ⊢
    omega
  -- the left one and the right one
  obtain ⟨tl, tr, hleft, hfit, hslots, h₀⟩ : ∃ tl tr, ¬ Γ.keep (j.first p q) ∧
      fill Γ.P (j.first es j.sibling) + fill Γ.P (j.second es j.sibling) ≤ Γ.P - 18 ∧
      SlotFits Γ.P (j.first es j.sibling ++ j.second es j.sibling) ∧
      Own Γ (b + entriesPages Γ.P (j.second es j.sibling)) r
        (.node (j.first p q) (.leaf tl (j.first es j.sibling)) ::ₘ
        .node (j.second p q) (.leaf tr (j.second es j.sibling)) ::ₘ O) s := by
    cases hside : j.isLeft with
    | true =>
      simp only [Joint.first_left hside, Joint.second_left hside]
      exact ⟨tk, tp, hq, by omega, hslots',
        (h.room_mono _ (by omega)).perm (Multiset.cons_swap _ _ _)⟩
    | false =>
      simp only [Joint.first_right hside, Joint.second_right hside]
      exact ⟨tp, tk, hp, by omega, hslots, h.room_mono _ (by omega)⟩
  obtain ⟨_, s', hmerge, R', G, hR', hG, h'⟩ := mergeLeaf_ok hleft h₀ hfit hslots
  refine Exec.Ok.intro () s' hmerge ⟨tl, j.first es j.sibling ++ R', G, ?_, hG, h'⟩
  unfold SameData at hR' ⊢
  rw [List.map_append, List.map_append, hR']

/-- The two leaves become one. -/
theorem mergeSiblings_ok {q tk : Nat} (hu : Underfull Γ f j g k p es) (hq : ¬ Γ.keep q)
    (hlends : ¬ j.Lends Γ.P) (h : Own Γ (b + (entriesPages Γ.P es + entriesPages Γ.P j.sibling)) r
      (g.two j.separator (j.first p q) (j.second p q) ::ₘ .node p (.leaf tp es) ::ₘ
        .node q (.leaf tk j.sibling) ::ₘ O) s) :
    Exec.Ok (BTree.mergeSiblings Γ.env g.pgid j.left.length p q j.isLeft) s fun step s' =>
      step.Leaves Γ.env g (j.rows es) s' ∧ ∃ B, Own Γ b r (B + O) s' := by
  have hg : ¬ Γ.keep g.pgid := by
    rw [hu.beside.pgid_eq]
    exact hu.parent
  have hlen : (g.ksL.map Tree.pgid).length = g.esL.length := by rw [List.length_map, g.lenL]
  have h₀ : Own Γ (b + (entriesPages Γ.P es + entriesPages Γ.P j.sibling)) r
      (.node p (.leaf tp es) ::ₘ .node q (.leaf tk j.sibling) ::ₘ
        g.two j.separator (j.first p q) (j.second p q) ::ₘ O) s := h.perm (by
    simp only [← Multiset.singleton_add]
    abel)
  obtain ⟨_, s₁, hmerge, tl, M, G, hM, -, h₁⟩ := mergeLeaf_pair hu.leaf hq hu.short hlends h₀
  have h₂ : Own Γ b r (g.two j.separator (j.first p q) (j.second p q) ::ₘ
      (.node (j.first p q) (.leaf tl M) ::ₘ (G + O))) s₁ := h₁.perm (by
    simp only [← Multiset.singleton_add]
    abel)
  -- With the separator the child behind it goes, which is the leaf that was emptied.
  obtain ⟨s₂, hdelete, h₃, -⟩ := h₂.branchDelete_right hg hlen
  have h₄ : Own Γ b r (.node (j.first p q) (.leaf tl M) ::ₘ (g.obj (j.first p q) ::ₘ (G + O))) s₂ :=
    h₃.perm (Multiset.cons_swap _ _ _)
  have hrows : rowsOf M = j.rows es := hM
  -- The sibling is not empty, whichever of the two it is.
  have hne : j.rows es ≠ [] := by
    intro hnil
    obtain ⟨hfirst, hsecond⟩ := List.append_eq_nil_iff.1 (List.map_eq_nil_iff.1 hnil)
    cases hside : j.isLeft with
    | true => exact hu.sibling_ne ((Joint.first_left hside).symm.trans hfirst)
    | false => exact hu.sibling_ne ((Joint.second_right hside).symm.trans hsecond)
  have hshows := h₄.leafShows
  rw [hrows] at hshows
  have hreads : BranchReads Γ.env g.pgid (g.fence [] [j.first p q]) s₂ := by
    have hread := h₃.branchShows.reads
    unfold keysOf at hread
    rw [List.map_append] at hread
    exact hread
  refine Exec.Ok.intro .merged s₂ ?_ ⟨⟨j.first p q, hreads, hshows, hne⟩,
    g.obj (j.first p q) ::ₘ .node (j.first p q) (.leaf tl M) ::ₘ G, h₃.perm ?_⟩
  · unfold BTree.mergeSiblings
    show (BTree.mergeLeaf Γ.env (j.first p q) (j.second p q) >>= _) s = _
    rw [Exec.bind_of_ok hmerge, ← hu.beside.left_eq, Exec.bind_of_ok hdelete]
    rfl
  · simp only [← Multiset.singleton_add]
    unfold Frame.obj
    abel

/-! ## The law -/

/-- The old separator is replaced in place: nothing is moved, or it is stored in the page, or the
new one finds room below the records of the branch `n`. -/
def Joint.Replaces (P : Nat) (j : Joint) (n : Node) : Prop :=
  j.Lends P → ¬ Node.maxInline P < j.separator.size ∨ n.RoomBelow (recordStub P j.leafKey [])

instance (P : Nat) (j : Joint) (n : Node) : Decidable (j.Replaces P n) :=
  inferInstanceAs (Decidable (_ → _))

/-- The step, with all else as it was. -/
theorem leafStep_ok (hu : Underfull Γ f j g k p es) (hn : s.pager.pages f.pgid = .node n)
    (hfit : j.Lends Γ.P → Fits Γ.P (j.left ++ j.right) j.leafKey [])
    (h : Own Γ (b + j.leafRoom Γ.P es) r
      (f.obj p ::ₘ .node p (.leaf tp es) ::ₘ .node k.pgid k.view ::ₘ O) s) :
    (j.Replaces Γ.P n → Exec.Ok (BTree.leafStep Γ.env (f.pgid, f.esL.length) p) s fun step s' =>
      step.Leaves Γ.env g (j.rows es) s' ∧ ∃ B, Own Γ b r (B + O) s') ∧
    (¬ j.Replaces Γ.P n → Exec.Fails (BTree.leafStep Γ.env (f.pgid, f.esL.length) p) s) := by
  have h₀ : Own Γ (b + 1 + (entriesPages Γ.P es + entriesPages Γ.P j.sibling) + 1) r
      (f.obj p ::ₘ .node p (.leaf tp es) ::ₘ .node k.pgid k.view ::ₘ O) s := h.room_mono _ (by
    unfold Joint.leafRoom
    omega)
  -- both ways begin with the copy of the sibling
  obtain ⟨q, tk, s₁, n₁, hq, h₁, hn₁, hledger, hbegin⟩ := leafStep_begin hu hn h₀
  have hroom := Node.roomBelow_of_ledger hledger (recordStub Γ.P j.leafKey [])
  by_cases hlends : j.Lends Γ.P
  · rw [if_pos hlends] at hbegin
    obtain ⟨hgood, hbad⟩ := moveRecord_ok (b := b) hu hq hlends (hfit hlends) hn₁
      (h₁.room_mono _ (by omega))
    rw [hroom] at hgood hbad
    constructor
    · intro hrepl
      exact Exec.Ok.of_run_eq hbegin (hgood (hrepl hlends))
    · intro hrepl
      obtain ⟨hover, hbelow⟩ := not_or.1 fun hcase => hrepl fun _ => hcase
      obtain ⟨err, s', herror⟩ := hbad (not_not.1 hover) hbelow
      exact ⟨err, s', hbegin.trans herror⟩
  · rw [if_neg hlends] at hbegin
    constructor
    · intro _
      exact Exec.Ok.of_run_eq hbegin
        (mergeSiblings_ok (b := b) hu hq hlends (h₁.room_mono _ (by omega)))
    · intro hrepl
      exact absurd (fun hyes => absurd hyes hlends) hrepl

/-- The other children are among the nodes beside the two leaves. -/
theorem Frame.mem_sideObjs {g : Frame 0} {t : Tree 0} (ht : t ∈ g.ksL ++ g.ksR) :
    Obj.node t.pgid t.view ∈ g.sideObjs := by
  have hroot : Obj.node t.pgid t.view ∈ t.objs := by
    rw [t.objs_eq]
    exact Multiset.mem_cons_self _ _
  unfold sideObjs
  rcases List.mem_append.1 ht with ht | ht
  · exact Multiset.mem_add.2 (.inl (Tree.mem_sum_objs.2 ⟨t, ht, hroot⟩))
  · exact Multiset.mem_add.2 (.inr (Tree.mem_sum_objs.2 ⟨t, ht, hroot⟩))

/-- **The balancing of two leaves** keeps the records and separates the leaves, unless a separator
in overflow pages is replaced and the branch has to be compacted for it. -/
theorem leafStep_rebalances_iff (hu : Underfull Γ f j g k p es)
    (hn : s.pager.pages f.pgid = .node n)
    (hfit : j.Lends Γ.P → Fits Γ.P (j.left ++ j.right) j.leafKey [])
    (h : Own Γ (b + j.leafRoom Γ.P es) r (f.obj p ::ₘ .node p (.leaf tp es) ::ₘ (f.sideObjs + O))
      s) :
    (∃ step s', BTree.leafStep Γ.env (f.pgid, f.esL.length) p s = (.ok step, s') ∧
      Rebalances Γ.env g (j.rows es) s s' step) ↔ j.Replaces Γ.P n := by
  have hbelow : k.below = 0 := rfl
  have h₀ : Own Γ (b + j.leafRoom Γ.P es) r
      (f.obj p ::ₘ .node p (.leaf tp es) ::ₘ .node k.pgid k.view ::ₘ (g.sideObjs + O)) s :=
        h.perm (by
    rw [hu.beside.sideObjs_eq, k.objs_eq, hbelow]
    simp only [← Multiset.singleton_add]
    abel)
  obtain ⟨hgood, hbad⟩ := leafStep_ok hu hn hfit h₀
  constructor
  · rintro ⟨step, s', hrun, -⟩
    by_contra hrepl
    obtain ⟨err, s'', herror⟩ := hbad hrepl
    cases herror.symm.trans hrun
  · intro hrepl
    obtain ⟨step, s', hrun, hleaves, B, h'⟩ := hgood hrepl
    refine ⟨step, s', hrun, hleaves, fun t ht => ?_, fun t ht => ?_⟩
    -- a side tree of the frame is not among the three pages that the step owns
    · obtain ⟨O', hO'⟩ :=
        Multiset.exists_cons_of_mem (Multiset.mem_add.2 (.inl (Frame.mem_sideObjs ht)) :
        Obj.node t.pgid t.view ∈ g.sideObjs + O)
      have h₁ : Own Γ (b + j.leafRoom Γ.P es) r
          ({f.obj p, .node p (.leaf tp es), .node k.pgid k.view} +
          (.node t.pgid t.view ::ₘ O')) s := by
        rw [hO'] at h₀
        exact h₀.perm (Rebalance.triple_add _ _ _ _).symm
      refine h₁.page_eq hrun fun O'' hO'' => ?_
      have hstep := (leafStep_ok hu hn hfit (hO''.perm (Rebalance.triple_add _ _ _ _))).1 hrepl
      exact hstep.imp fun _ _ hafter => ⟨b, hafter.2⟩
    · obtain ⟨O', hO'⟩ :=
        Multiset.exists_cons_of_mem (Multiset.mem_add.2 (.inl (Frame.mem_sideObjs ht)) :
        Obj.node t.pgid t.view ∈ g.sideObjs + O)
      rw [hO', Multiset.add_cons] at h'
      exact h'.leafShows

/-! ### Two leaves with a short separator -/

/-- The records of a leaf that lends one. -/
def lendingKeys : List Entry := [keyEntry (longKey 2), keyEntry (longKey 3)]

def leafPair : List (Nat × NodeView) :=
  [(2, .branch 1 [keyEntry [2]] [3, 4]), (3, .leaf 1 [keyEntry [1]]), (4, .leaf 1 lendingKeys)]

def leafPairState : TxState := layout 256 freshMeta 2 leafPair

theorem underfull_leafPair : Underfull (layoutScope smallEnv smallEnv_ok freshMeta 3)
    ⟨2, 1, [], [], [keyEntry [2]], [.leaf 4 1 lendingKeys], rfl, rfl⟩
      ⟨[], keyEntry [2], [], lendingKeys, false⟩
    ⟨2, 1, [], [], [], [], rfl, rfl⟩ (.leaf 4 1 lendingKeys) 3 [keyEntry [1]] where
  beside := .right rfl rfl rfl
  parent := fun hk => hk
  leaf := fun hk => hk
  safe := Tree.safe_of_keep_nothing _
  short := by decide
  sibling_ne := List.cons_ne_nil _ _
  sorted := by
    show List.Pairwise (fun a a' : Entry => byteOrder a.key a'.key = .lt)
      ([keyEntry [1]] ++ lendingKeys)
    decide

/-- The leaf has one record after the step and is followed by the key of the second. -/
theorem leafStep_rebalances_pair : ∃ step s', BTree.leafStep smallEnv (2, 0) 3 leafPairState =
    (.ok step, s') ∧ Rebalances smallEnv ⟨2, 1, [], [], [], [], rfl, rfl⟩
      (rowsOf (keyEntry [1] :: lendingKeys)) leafPairState s' step := by
  have hpages : leafPair.length + 2 + (0 + 2) ≤ kPageMaxCount := by decide
  have h : Own (layoutScope smallEnv smallEnv_ok freshMeta 3) (0 + 2) 2
      (.node 2 (.branch 1 [keyEntry [2]] [3, 4]) ::ₘ
      .node 3 (.leaf 1 [keyEntry [1]]) ::ₘ .node 4 (.leaf 1 lendingKeys) ::ₘ 0) leafPairState :=
    own_layout (show ∀ n ∈ leafPair, n.2.Lays 256 by decide) (List.Perm.refl _) hpages
  obtain ⟨n, -, -, hn, -⟩ := h.read_node
  have hfit : Fits 256 [] (longKey 3) [] := by decide
  have hinline : ¬ Node.maxInline 256 < (keyEntry [2]).size := by decide
  have hstep :=
    (leafStep_rebalances_iff (b := 0) (O := 0) underfull_leafPair hn (fun _ => hfit) h).2
    fun _ => .inl hinline
  exact hstep

/-! ### A separator in an overflow page -/

/-- A key of the largest size that is stored in a page of 256 bytes. -/
def widestKey (n : UInt8) : Bytes := n :: List.replicate 110 0

def widestKeys : List Entry := [keyEntry [4], keyEntry (widestKey 8)]

def leafTriple : List (Nat × NodeView) :=
  [(2, .branch 1 [keyEntry (widestKey 9)] [3, 5]), (3, .leaf 1 [keyEntry [1]]),
    (4, .leaf 1 widestKeys), (5, .leaf 1 [keyEntry (widestKey 9)])]

/-- The branch gets a separator that is one byte too long for the page. -/
def longSeparatorState : TxState :=
  (BranchNode.insert smallEnv 2 0 (widestKey 3 ++ [0]) 4 true (layout 256 freshMeta 2 leafTriple)).2

theorem underfull_leafTriple (u : Entry) : Underfull (layoutScope smallEnv smallEnv_ok freshMeta 4)
    ⟨2, 1, [], [], [u, keyEntry (widestKey 9)],
      [.leaf 4 1 widestKeys, .leaf 5 1 [keyEntry (widestKey 9)]], rfl, rfl⟩
    ⟨[], u, [keyEntry (widestKey 9)], widestKeys, false⟩
    ⟨2, 1, [], [], [keyEntry (widestKey 9)], [.leaf 5 1 [keyEntry (widestKey 9)]], rfl, rfl⟩
    (.leaf 4 1 widestKeys) 3 [keyEntry [1]] where
  beside := .right rfl rfl rfl
  parent := fun hk => hk
  leaf := fun hk => hk
  safe := Tree.safe_of_keep_nothing _
  short := by decide
  sibling_ne := List.cons_ne_nil _ _
  sorted := by
    show List.Pairwise (fun a a' : Entry => byteOrder a.key a'.key = .lt)
      ([keyEntry [1]] ++ widestKeys)
    decide

theorem own_longSeparator : ∃ bucket run, Own (layoutScope smallEnv smallEnv_ok freshMeta 4) (0 + 2)
    2
      (.node 2
        (.branch 1 [⟨widestKey 3 ++ [0], [], bucket, run⟩, keyEntry (widestKey 9)] [3, 4, 5]) ::ₘ
      .node 3 (.leaf 1 [keyEntry [1]]) ::ₘ .node 4 (.leaf 1 widestKeys) ::ₘ
        .node 5 (.leaf 1 [keyEntry (widestKey 9)]) ::ₘ 0) longSeparatorState := by
  have hrecord : recordPages 256 (widestKey 3 ++ [0]) [] = 1 := by decide
  have hpages : leafTriple.length + 2 + (0 + 2 + recordPages 256 (widestKey 3 ++ [0]) []) ≤
      kPageMaxCount := by
    rw [hrecord]
    decide
  have h₀ : Own (layoutScope smallEnv smallEnv_ok freshMeta 4)
      (0 + 2 + recordPages 256 (widestKey 3 ++ [0]) []) 2
      (.node 2 (.branch 1 ([] ++ [keyEntry (widestKey 9)]) ([] ++ 3 :: [5])) ::ₘ
        .node 3 (.leaf 1 [keyEntry [1]]) ::ₘ .node 4 (.leaf 1 widestKeys) ::ₘ
          .node 5 (.leaf 1 [keyEntry (widestKey 9)]) ::ₘ 0)
      (layout 256 freshMeta 2 leafTriple) :=
    own_layout (show ∀ n ∈ leafTriple, n.2.Lays 256 by decide +kernel) (List.Perm.refl _) hpages
  have hadm : Admissible 256 (widestKey 3 ++ [0]) [] := admissible_small (by decide) (Nat.zero_le _)
  have hfit : Fits 256 ([] ++ [keyEntry (widestKey 9)]) (widestKey 3 ++ [0]) [] := by decide
  obtain ⟨_, s, hinsert, -, bucket, run, h⟩ :=
    h₀.branchInsert_right (fun hk => hk) rfl hadm hfit (by decide) 4
  have hs : s = longSeparatorState := (congrArg Prod.snd hinsert).symm
  rw [hs] at h
  exact ⟨bucket, run, h⟩

/-- **The step does not always return**, though the branch has room for the new separator. -/
theorem leafStep_not_rebalances :
    ∃ (Γ : Scope) (f : Frame 0) (j : Joint) (g : Frame 0) (k : Tree 0) (p tp b r : Nat)
    (es : List Entry) (O : Multiset Obj) (s : TxState), Underfull Γ f j g k p es ∧
      Fits Γ.P (j.left ++ j.right) j.leafKey [] ∧
      Own Γ (b + j.leafRoom Γ.P es) r (f.obj p ::ₘ .node p (.leaf tp es) ::ₘ (f.sideObjs + O)) s ∧
      ¬ ∃ step s', BTree.leafStep Γ.env (f.pgid, f.esL.length) p s = (.ok step, s') ∧
        Rebalances Γ.env g (j.rows es) s s' step := by
  obtain ⟨bucket, run, h⟩ := own_longSeparator
  have hfit : Fits 256 [keyEntry (widestKey 9)] (widestKey 8) [] := by decide +kernel
  have hroom : 2 + (entriesPages 256 [keyEntry [1]] + entriesPages 256 widestKeys) = 2 := by
    decide +kernel
  have herror : (BTree.leafStep smallEnv (2, 0) 3 longSeparatorState).1 = .error .assertion := by
    decide +kernel
  refine ⟨_, _, _, _, _, 3, 1, 0, 2, _, 0, longSeparatorState,
    underfull_leafTriple ⟨widestKey 3 ++ [0], [], bucket, run⟩, hfit, ?_, ?_⟩
  · unfold Joint.leafRoom
    show Own _ (0 + (2 + (entriesPages 256 [keyEntry [1]] + entriesPages 256 widestKeys))) _ _ _
    rw [hroom]
    exact h
  · rintro ⟨step, s', hrun, -⟩
    cases herror.symm.trans (congrArg Prod.fst hrun)

end Step

end AtomKV

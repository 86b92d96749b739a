import AtomKV.DeleteBranch
import AtomKV.InsertionLaw

/-!
# Room for rebalancing

Where `BTree` divides a node, moves a record to a neighbour or merges two nodes, it asserts that
every insertion on the way succeeds. A place of this kind is a `Rebalance`: the nodes with their
contents and the arguments of the call. The code arrives there after tests on fill rates and counts;
`returns_iff` says that behind these tests all insertions succeed, in pages of every size and for
all mixes of records, except for one case. Two branches that are merged take the separator between
them as well, and the tests leave no room for it.
-/

set_option autoImplicit false

namespace AtomKV

/-! ## The balancing of a leaf -/

namespace BTree

/-- The move of a record to the leaf `node` from its sibling; the result is the new separator. -/
def rotateLeaf (env : Env) (node sibling count : Nat) (leftSibling : Bool) : TxM Bytes :=
  if leftSibling then do
    let key ← Node.getKey env sibling (count - 1)
    let value ← LeafNode.getValue env sibling (count - 1)
    let success ← LeafNode.insert env node 0 key value
    assert success
    let b ← LeafNode.isBucket sibling (count - 1)
    LeafNode.setIsBucket node 0 b
    LeafNode.pop env sibling
    Node.getKey env node 0
  else do
    let key ← Node.getKey env sibling 0
    let value ← LeafNode.getValue env sibling 0
    let success ← LeafNode.append env node key value
    assert success
    let nodeCount ← Node.countOf node
    let b ← LeafNode.isBucket sibling 0
    LeafNode.setIsBucket node (nodeCount - 1) b
    LeafNode.delete env sibling 0
    Node.getKey env sibling 0

/-- The balancing of a leaf with its sibling. -/
def balanceLeaf (env : Env) (front : Nat × Nat) (rest : List (Nat × Nat))
    (node : Nat) : TxM Unit := do
  let (parentSlotId, sibling, leftSibling) ← getSibling front
  let sibling ← copySibling env front.1 parentSlotId sibling leftSibling
  let rate ← Node.fillRate env sibling
  let count ← Node.countOf sibling
  let left := if leftSibling then sibling else node
  let right := if leftSibling then node else sibling
  if Node.rateGt rate 1 2 ∧ 2 ≤ count then do
    let newKey ← rotateLeaf env node sibling count leftSibling
    let update : TxM Bool := do
      let child ← BranchNode.getLeftChild front.1 parentSlotId
      BranchNode.update env front.1 parentSlotId newKey child false
    replaceSeparator env update front.1 parentSlotId rest left right newKey
  else do
    mergeLeaf env left right
    deleteBranch env rest front.1 parentSlotId

theorem deleteAt_eq (env : Env) (iter : BTreeIterator) :
    deleteAt env iter = (do
      checkNotLiveBucket env iter
      let (pgid, pos) ← BTreeIterator.front iter
      LeafNode.delete env pgid pos
      let rate ← Node.fillRate env pgid
      if Node.rateGe rate 2 5 then return () else
        match iter.stack with
        | _ :: front :: rest => balanceLeaf env front rest pgid
        | _ => return ()) := by
  unfold deleteAt deleteAtWith
  refine bind_congr fun _ => bind_congr fun front => ?_
  obtain ⟨pgid, pos⟩ := front
  refine bind_congr fun _ => bind_congr fun rate => ?_
  refine ite_congr rfl (fun _ => rfl) fun _ => ?_
  rcases iter.stack with _ | ⟨_, _ | ⟨front, rest⟩⟩
  · rfl
  · rfl
  · unfold balanceLeaf
    refine bind_congr fun r => ?_
    obtain ⟨parentSlotId, sibling, leftSibling⟩ := r
    refine bind_congr fun sibling => bind_congr fun rate => bind_congr fun count => ?_
    refine ite_congr rfl (fun _ => ?_) fun _ => ?_
    · unfold rotateLeaf replaceSeparator reinsert
      cases leftSibling with
      | true => simp
      | false => simp
    · cases leftSibling with
      | true => rfl
      | false => rfl

end BTree

namespace Own

variable {Γ : PageScope} {b r : ℕ} {O : Multiset Obj} {s : TxState} {p tp pk tk : Nat}
  {es S : List Entry} {w : Entry}

/-- From the left sibling: its last record becomes the first one of the leaf. -/
theorem rotateLeaf_left (hp : ¬ Γ.keep p) (hk : ¬ Γ.keep pk) (hhalf : 2 * fill Γ.P es ≤ Γ.P - 18)
    (h : Own Γ (b + w.pages Γ.P) r (.node p (.leaf tp es) ::ₘ .node pk (.leaf tk (S ++ [w])) ::ₘ O)
      s) :
    ∃ s' run G, BTree.rotateLeaf Γ.env p pk (S ++ [w]).length true s = (.ok w.key, s') ∧
      JunkOnly G ∧
      Own Γ b r (.node p (.leaf tp ({ w with run := run } :: es)) ::ₘ .node pk (.leaf tk S) ::ₘ
        (G + O)) s' := by
  have hlast : (S ++ [w])[S.length]? = some w := by simp
  have hm : Obj.node pk (.leaf tk (S ++ [w])) ∈
      .node p (.leaf tp es) ::ₘ .node pk (.leaf tk (S ++ [w])) ::ₘ O :=
    Multiset.mem_cons_of_mem (Multiset.mem_cons_self _ _)
  have hadm : Admissible Γ.P w.key w.value := (h.admissible_of_mem hm w (by simp)).admissible
  have h₀ : Own Γ (b + recordPages Γ.P w.key w.value) r
      (.node p (.leaf tp ([] ++ es)) ::ₘ .node pk (.leaf tk (S ++ [w])) ::ₘ O) s := h
  -- The record is inserted before it is popped, so for a moment it is stored twice.
  obtain ⟨s₁, s₂, run, old, hinsert, h₁, hset, h₂⟩ :=
    h₀.leafInsert_flag hp hadm (fits_of_half Γ.hP hhalf _ _)
    (slotFits_of_half Γ.hP hhalf (Nat.le_succ _)) w.isBucket
  have hflag : LeafNode.isBucket pk S.length s₁ = (.ok w.isBucket, s₁) :=
    h₁.isBucket (Multiset.mem_cons_of_mem (Multiset.mem_cons_self _ _)) hlast
  rw [Multiset.cons_swap] at h₂
  obtain ⟨s₃, G, hdelete, hG, -, h₃, -⟩ := h₂.leafDelete hk
  have hpop : LeafNode.pop Γ.env pk s₂ = (.ok (), s₃) := by
    unfold LeafNode.pop
    rw [Exec.bind_of_ok (h₂.countOf (Multiset.mem_cons_self _ _))]
    simpa using hdelete
  rw [List.append_nil] at h₃
  have hfirst : Node.getKey Γ.env p 0 s₃ = (.ok w.key, s₃) :=
    h₃.getKey (v := .leaf tp ({ w with run := run } :: es))
      (e := { w with run := run }) (by simp) rfl
  refine ⟨s₃, run, G, ?_, hG, h₃.perm ?_⟩
  · unfold BTree.rotateLeaf assert
    rw [if_pos rfl, List.length_append, List.length_singleton, Nat.add_sub_cancel,
      Exec.bind_of_ok (h.getKey hm hlast), Exec.bind_of_ok (h.getValue hm hlast),
      Exec.bind_of_ok (show LeafNode.insert Γ.env p 0 w.key w.value s = (.ok true, s₁)
        from hinsert), Exec.require_bind rfl,
      Exec.bind_of_ok hflag,
        Exec.bind_of_ok (show LeafNode.setIsBucket p 0 w.isBucket s₁ = (.ok (), s₂) from hset),
      Exec.bind_of_ok hpop, hfirst]
  · simp only [List.nil_append, ← Multiset.singleton_add]
    abel

/-- From the right sibling: its first record becomes the last one of the leaf, and its second key
the separator. -/
theorem rotateLeaf_right {v : Entry} (hp : ¬ Γ.keep p) (hk : ¬ Γ.keep pk)
    (hhalf : 2 * fill Γ.P es ≤ Γ.P - 18) (h : Own Γ (b + w.pages Γ.P) r
      (.node p (.leaf tp es) ::ₘ .node pk (.leaf tk (w :: v :: S)) ::ₘ O) s) :
    ∃ s' run G, BTree.rotateLeaf Γ.env p pk (w :: v :: S).length false s = (.ok v.key, s') ∧
      JunkOnly G ∧
      Own Γ b r (.node p (.leaf tp (es ++ [{ w with run := run }])) ::ₘ
        .node pk (.leaf tk (v :: S)) ::ₘ (G + O)) s' := by
  have hm : Obj.node pk (.leaf tk (w :: v :: S)) ∈ .node pk (.leaf tk (w :: v :: S)) ::ₘ O :=
    Multiset.mem_cons_self _ _
  have hw : (w :: v :: S)[0]? = some w := rfl
  have hfit := fits_of_half Γ.hP hhalf w.key w.value
  have hslots : SlotFits Γ.P es := slotFits_of_half Γ.hP hhalf (Nat.le_succ _)
  obtain ⟨s₁, run, h₁, hbegin⟩ := h.leafAppend_record hp hm hw hfit hslots
  rw [Multiset.cons_swap] at h₁
  obtain ⟨s₂, G, hdelete, hG, -, h₂⟩ := h₁.leafDelete_first hk
  have hfirst : Node.getKey Γ.env pk 0 s₂ = (.ok v.key, s₂) :=
    h₂.getKey (Multiset.mem_cons_self _ _) rfl
  refine ⟨s₂, run, G, ?_, hG, h₂.perm ?_⟩
  · unfold BTree.rotateLeaf
    rw [if_neg (by decide), hbegin, Exec.bind_of_ok hdelete, hfirst]
  · simp only [← Multiset.singleton_add]
    abel

end Own

/-! ## The places -/

/-- A leaf with its page and what is in it. -/
structure LeafPage where
  page : Nat
  txid : Nat
  entries : List Entry

/-- A branch with its page and what is in it. -/
structure BranchPage where
  page : Nat
  txid : Nat
  entries : List Entry
  kids : List Nat

def LeafPage.obj (l : LeafPage) : Obj := .node l.page (.leaf l.txid l.entries)

def BranchPage.obj (br : BranchPage) : Obj := .node br.page (.branch br.txid br.entries br.kids)

/-- The key at a slot. -/
def BranchPage.key (br : BranchPage) (slotId : Nat) : Bytes :=
  (br.entries[slotId]?.map Entry.key).getD []

/-- A place where the code asserts that insertions succeed. For a borrow and a merge the parent and
the slot of the separator matter in branches only, since a leaf takes nothing from its parent. -/
inductive Rebalance where
  | splitLeaf (left : LeafPage) (insertSlotId : Nat) (key value : Bytes) (isBucket : Bool)
  | splitBranch (left : BranchPage) (insertSlotId : Nat) (insertKey : Bytes)
      (insertRightChild : Nat)
  | borrowLeaf (node sibling : LeafPage) (leftSibling : Bool)
  | borrowBranch (parent : BranchPage) (parentSlotId : Nat) (node sibling : BranchPage)
      (leftSibling : Bool)
  | mergeLeaf (node sibling : LeafPage) (leftSibling : Bool)
  | mergeBranch (parent : BranchPage) (parentSlotId : Nat) (node sibling : BranchPage)
      (leftSibling : Bool)

/-- The tests before a borrow (`lends`) or a merge: the node is less than two fifths full, and its
sibling is more than half full with two records, or not. -/
def BTree.testsPair (env : Env) (node sibling : Nat) (lends : Bool) : TxM Bool := do
  let rate ← Node.fillRate env node
  let siblingRate ← Node.fillRate env sibling
  let count ← Node.countOf sibling
  return decide (¬ Node.rateGe rate 2 5 ∧ (Node.rateGt siblingRate 1 2 ∧ 2 ≤ count ↔ lends))

namespace Rebalance

/-- What the code tests before it gets there. -/
def tests (env : Env) : Rebalance → TxM Bool
  | splitLeaf left insertSlotId key value _ => do
      let success ← LeafNode.insert env left.page insertSlotId key value
      return !success
  | splitBranch left insertSlotId insertKey insertRightChild => do
      let success ← BranchNode.insert env left.page insertSlotId insertKey insertRightChild true
      return !success
  | borrowLeaf node sibling _ => BTree.testsPair env node.page sibling.page true
  | borrowBranch _ _ node sibling _ => BTree.testsPair env node.page sibling.page true
  | mergeLeaf node sibling _ => BTree.testsPair env node.page sibling.page false
  | mergeBranch _ _ node sibling _ => BTree.testsPair env node.page sibling.page false

/-- What the code does there. -/
def exec (env : Env) : Rebalance → TxM Unit
  | splitLeaf left insertSlotId key value isBucket => do
      let _ ← BTree.splitLeaf env left.page insertSlotId key value isBucket
      return ()
  | splitBranch left insertSlotId insertKey insertRightChild => do
      let _ ← BTree.splitBranch env left.page insertSlotId insertKey insertRightChild
      return ()
  | borrowLeaf node sibling leftSibling => do
      let count ← Node.countOf sibling.page
      let _ ← BTree.rotateLeaf env node.page sibling.page count leftSibling
      return ()
  | borrowBranch parent parentSlotId node sibling leftSibling => do
      let count ← Node.countOf sibling.page
      let _ ← BTree.rotateBranch env parent.page parentSlotId node.page
        sibling.page count leftSibling
      return ()
  | mergeLeaf node sibling leftSibling =>
      if leftSibling then BTree.mergeLeaf env sibling.page node.page else BTree.mergeLeaf
        env node.page sibling.page
  | mergeBranch parent parentSlotId node sibling leftSibling => do
      let downKey ← Node.getKey env parent.page parentSlotId
      if leftSibling then BTree.mergeBranch env sibling.page node.page downKey
      else BTree.mergeBranch env node.page sibling.page downKey

/-- The nodes that are there. -/
def objs : Rebalance → Multiset Obj
  | splitLeaf left _ _ _ _ => {left.obj}
  | splitBranch left _ _ _ => {left.obj}
  | borrowLeaf node sibling _ => {node.obj, sibling.obj}
  | borrowBranch parent _ node sibling _ => {parent.obj, node.obj, sibling.obj}
  | mergeLeaf node sibling _ => {node.obj, sibling.obj}
  | mergeBranch parent _ node sibling _ => {parent.obj, node.obj, sibling.obj}

/-- The pages of the nodes. -/
def pages : Rebalance → List Nat
  | splitLeaf left _ _ _ _ => [left.page]
  | splitBranch left _ _ _ => [left.page]
  | borrowLeaf node sibling _ => [node.page, sibling.page]
  | borrowBranch parent _ node sibling _ => [parent.page, node.page, sibling.page]
  | mergeLeaf node sibling _ => [node.page, sibling.page]
  | mergeBranch parent _ node sibling _ => [parent.page, node.page, sibling.page]

/-- The slot is one of the node, or for a new record at most the one behind the last, and the new
record is not too large. -/
def Valid (P : Nat) : Rebalance → Prop
  | splitLeaf left insertSlotId key value _ => insertSlotId ≤ left.entries.length ∧
      Admissible P key value
  | splitBranch left insertSlotId insertKey _ => insertSlotId ≤ left.entries.length ∧
      Admissible P insertKey []
  | borrowLeaf _ _ _ => True
  | borrowBranch parent parentSlotId _ _ _ => parentSlotId < parent.entries.length
  | mergeLeaf _ _ _ => True
  | mergeBranch parent parentSlotId _ _ _ => parentSlotId < parent.entries.length

/-- The pages that a new node and the overflow records can take. -/
def room (P : Nat) : Rebalance → ℕ
  | splitLeaf left _ key value _ => 1 + 2 * entriesPages P left.entries + recordPages P key value
  | splitBranch left _ insertKey _ => 1 + 2 * entriesPages P left.entries +
      recordPages P insertKey []
  | borrowLeaf _ sibling _ => entriesPages P sibling.entries
  | borrowBranch _ _ _ _ _ => 1
  | mergeLeaf node sibling _ => entriesPages P node.entries + entriesPages P sibling.entries
  | mergeBranch _ _ node sibling _ => entriesPages P node.entries +
      entriesPages P sibling.entries + 1

/-- Two branches that are merged fit into one page with the separator that descends between them.
Nothing is asked of the other places. -/
def HasRoom (P : Nat) : Rebalance → Prop
  | mergeBranch parent parentSlotId node sibling _ =>
      fill P node.entries + (8 + recordStub P (parent.key parentSlotId) []) + fill
        P sibling.entries ≤ P - 18
  | _ => True

instance decidableHasRoom (P : Nat) : (x : Rebalance) → Decidable (x.HasRoom P)
  | splitLeaf .. => inferInstanceAs (Decidable True)
  | splitBranch .. => inferInstanceAs (Decidable True)
  | borrowLeaf .. => inferInstanceAs (Decidable True)
  | borrowBranch .. => inferInstanceAs (Decidable True)
  | mergeLeaf .. => inferInstanceAs (Decidable True)
  | mergeBranch .. => inferInstanceAs (Decidable (_ ≤ _))

end Rebalance

/-! ## What the tests tell -/

namespace Own

variable {Γ : PageScope} {b r : ℕ} {O : Multiset Obj} {s s' : TxState} {q t : Nat}
  {es es₁ es₂ : List Entry} {kids : List Nat} {key value : Bytes}

/-- A leaf that refuses a record has no room for it. -/
theorem leafInsert_false
    (h : Own Γ (b + recordPages Γ.P key value) r (.node q (.leaf t (es₁ ++ es₂)) ::ₘ O) s)
    (hq : ¬ Γ.keep q) (hadm : Admissible Γ.P key value)
    (hrun : LeafNode.insert Γ.env q es₁.length key value s = (.ok false, s')) :
    s' = s ∧ ¬ Fits Γ.P (es₁ ++ es₂) key value := by
  by_cases hfit : Fits Γ.P (es₁ ++ es₂) key value
  · by_cases hslots : SlotFits Γ.P (es₁ ++ es₂)
    · cases ((h.leafInsert_ok hq hadm hfit hslots).eq_of_eq hrun).1
    · obtain ⟨err, s₁, herror⟩ := h.leafInsert_error hq hfit hslots
      cases herror.symm.trans hrun
  · exact ⟨((Prod.mk.inj ((h.leafInsert_refused hfit).symm.trans hrun)).2).symm, hfit⟩

/-- A branch that refuses a key has no room for it. -/
theorem branchInsert_false {child : Nat} {isRightChild : Bool}
    (h : Own Γ (b + recordPages Γ.P key []) r (.node q (.branch t (es₁ ++ es₂) kids) ::ₘ O) s)
    (hq : ¬ Γ.keep q) (hadm : Admissible Γ.P key [])
    (hrun : BranchNode.insert Γ.env q es₁.length key child isRightChild s = (.ok false, s')) :
    s' = s ∧ ¬ Fits Γ.P (es₁ ++ es₂) key [] := by
  by_cases hfit : Fits Γ.P (es₁ ++ es₂) key []
  · by_cases hslots : SlotFits Γ.P (es₁ ++ es₂)
    · cases ((h.branchInsert_ok hq hadm hfit hslots child isRightChild).eq_of_eq hrun).1
    · obtain ⟨err, s₁, herror⟩ := h.branchInsert_error hq hfit hslots child isRightChild
      cases herror.symm.trans hrun
  · exact ⟨((Prod.mk.inj ((h.branchInsert_refused hfit child).symm.trans hrun)).2).symm, hfit⟩

/-- The tests before a borrow or a merge, from the contents of the two nodes. -/
theorem testsPair {p : Nat} {v v' : NodeView} {lends : Bool} (h : Own Γ b r O s)
    (hp : Obj.node p v ∈ O) (hq : Obj.node q v' ∈ O)
    (hrun : BTree.testsPair Γ.env p q lends s = (.ok true, s')) :
    s' = s ∧ 5 * fill Γ.P v.entries < 2 * (Γ.P - 18) ∧
      (Γ.P - 18 < 2 * fill Γ.P v'.entries ∧ 2 ≤ v'.entries.length ↔ lends = true) := by
  unfold BTree.testsPair at hrun
  rw [Exec.bind_of_ok (h.fillRate hp), Exec.bind_of_ok (h.fillRate hq),
    Exec.bind_of_ok (h.countOf hq)] at hrun
  obtain ⟨htests, rfl⟩ := Prod.mk.inj hrun
  obtain ⟨hshort, hlends⟩ := of_decide_eq_true (Except.ok.inj htests)
  unfold Node.rateGe at hshort
  unfold Node.rateGt at hlends
  rw [one_mul] at hlends
  exact ⟨rfl, by omega, hlends⟩

end Own

/-- A node that does not lend is at most half full, since one record takes no more than that. -/
theorem half_of_not_lends {P : Nat} (hP : PageRange P) {es : List Entry}
    (h : ¬ (P - 18 < 2 * fill P es ∧ 2 ≤ es.length)) : 2 * fill P es ≤ P - 18 := by
  by_contra hover
  exact h ⟨by omega, two_le_length hP (by omega)⟩

/-- Two nodes, one of them less than two fifths full and the other one at most half full, and
one more slot. -/
theorem slotFits_pair {P : Nat} (hP : PageRange P) {es es' : List Entry}
    (h : 5 * fill P es < 2 * (P - 18)) (h' : 2 * fill P es' ≤ P - 18) : SlotFits P (es ++ es') := by
  have hmin := hP.min
  unfold fill at h h'
  unfold SlotFits
  rw [List.length_append]
  omega

/-! ## Each place -/

namespace Rebalance

variable {Γ : PageScope} {b r : ℕ} {O : Multiset Obj} {s s' : TxState}

/-- The code goes on from there without an exception. -/
def Returns (env : Env) (x : Rebalance) (s : TxState) : Prop := ∃ s', x.exec env s = (.ok (), s')

theorem splitLeaf_returns {left : LeafPage} {insertSlotId : Nat} {key value : Bytes}
    {isBucket : Bool} (hslot : insertSlotId ≤ left.entries.length) (hadm : Admissible Γ.P key value)
    (hkeep : ¬ Γ.keep left.page)
    (h : Own Γ (b + (splitLeaf left insertSlotId key value isBucket).room Γ.P) r (left.obj ::ₘ O) s)
    (htests : (splitLeaf left insertSlotId key value isBucket).tests Γ.env s = (.ok true, s')) :
    (splitLeaf left insertSlotId key value isBucket).Returns Γ.env s' := by
  obtain ⟨page, txid, es⟩ := left
  obtain ⟨A, B, rfl, rfl⟩ := ListAt.exists_split_le hslot
  unfold Rebalance.room at h
  obtain ⟨ok, s₁, hinsert, hrest⟩ := Exec.bind_eq_ok htests
  obtain ⟨hok, rfl⟩ := Prod.mk.inj hrest
  obtain rfl : ok = false := by simpa using Except.ok.inj hok
  obtain ⟨rfl, hfull⟩ :=
    (h.room_mono (b + recordPages Γ.P key value) (by simp only; omega)).leafInsert_false
    hkeep hadm hinsert
  obtain ⟨right, s₂, hsplit, -⟩ := splitLeaf_ok (b := b) hkeep isBucket hadm h hfull
  exact ⟨s₂, Exec.bind_of_ok hsplit⟩

theorem splitBranch_returns {left : BranchPage} {insertSlotId : Nat} {insertKey : Bytes}
    {insertRightChild : Nat} (hslot : insertSlotId ≤ left.entries.length)
    (hadm : Admissible Γ.P insertKey []) (hkeep : ¬ Γ.keep left.page)
    (h : Own Γ (b + (splitBranch left insertSlotId insertKey insertRightChild).room Γ.P)
      r (left.obj ::ₘ O) s)
    (htests : (splitBranch left insertSlotId insertKey insertRightChild).tests Γ.env s =
      (.ok true, s')) :
    (splitBranch left insertSlotId insertKey insertRightChild).Returns Γ.env s' := by
  obtain ⟨page, txid, es, kids⟩ := left
  have hkids : kids.length = es.length + 1 := h.branch_kids_length (Multiset.mem_cons_self _ _)
  obtain ⟨K₁, K₂, rfl, rfl⟩ := ListAt.exists_split_le hslot
  obtain ⟨T₁, c, T₂, rfl, hlen⟩ : ∃ T₁ c T₂, kids = T₁ ++ c :: T₂ ∧ T₁.length = K₁.length := by
    obtain ⟨T₁, T, rfl, hlen⟩ := ListAt.exists_split_le (l := kids) (i := K₁.length)
      (by rw [hkids, List.length_append]; omega)
    cases T with
    | nil =>
      rw [List.append_nil, List.length_append] at hkids
      omega
    | cons c T₂ => exact ⟨T₁, c, T₂, rfl, hlen⟩
  unfold Rebalance.room at h
  obtain ⟨ok, s₁, hinsert, hrest⟩ := Exec.bind_eq_ok htests
  obtain ⟨hok, rfl⟩ := Prod.mk.inj hrest
  obtain rfl : ok = false := by simpa using Except.ok.inj hok
  obtain ⟨rfl, hfull⟩ :=
    (h.room_mono (b + recordPages Γ.P insertKey []) (by simp only; omega)).branchInsert_false
    hkeep hadm hinsert
  obtain ⟨res, s₂, hsplit, -⟩ := splitBranch_ok (b := b) hkeep hadm insertRightChild h hlen hfull
  exact ⟨s₂, Exec.bind_of_ok hsplit⟩

theorem borrowLeaf_returns {node sibling : LeafPage} {leftSibling : Bool}
    (hnode : ¬ Γ.keep node.page) (hsibling : ¬ Γ.keep sibling.page)
    (h : Own Γ (b + (borrowLeaf node sibling leftSibling).room Γ.P) r
      (node.obj ::ₘ sibling.obj ::ₘ O) s)
    (htests : (borrowLeaf node sibling leftSibling).tests Γ.env s = (.ok true, s')) :
    (borrowLeaf node sibling leftSibling).Returns Γ.env s' := by
  obtain ⟨p, tp, es⟩ := node
  obtain ⟨pk, tk, es'⟩ := sibling
  have hm : Obj.node pk (.leaf tk es') ∈ .node p (.leaf tp es) ::ₘ .node pk (.leaf tk es') ::ₘ O :=
    Multiset.mem_cons_of_mem (Multiset.mem_cons_self _ _)
  obtain ⟨rfl, hshort, hlends⟩ := h.testsPair (Multiset.mem_cons_self _ _) hm htests
  obtain ⟨-, htwo⟩ := hlends.2 rfl
  -- 40% is below one half, so the record of the sibling fits
  have hhalf : 2 * fill Γ.P es ≤ Γ.P - 18 := by
    have : 5 * fill Γ.P es < 2 * (Γ.P - 18) := hshort
    omega
  have hcount : Node.countOf pk s' = (.ok es'.length, s') := h.countOf hm
  cases leftSibling with
  | true =>
    obtain rfl | ⟨S, w, rfl⟩ := List.eq_nil_or_concat' es'
    · exact absurd htwo (Nat.not_succ_le_zero 1)
    have hpages : w.pages Γ.P ≤ entriesPages Γ.P (S ++ [w]) := by simp
    obtain ⟨s₁, run, G, hrun, -⟩ := (h.room_mono (b + w.pages Γ.P) (by
      unfold Rebalance.room
      exact Nat.add_le_add_left hpages b)).rotateLeaf_left hnode hsibling hhalf
    exact ⟨s₁, (Exec.bind_of_ok hcount).trans (Exec.bind_of_ok hrun)⟩
  | false =>
    match es', htwo with
    | w :: v :: S, _ =>
      have hpages : w.pages Γ.P ≤ entriesPages Γ.P (w :: v :: S) := by simp
      obtain ⟨s₁, run, G, hrun, -⟩ := (h.room_mono (b + w.pages Γ.P) (by
        unfold Rebalance.room
        exact Nat.add_le_add_left hpages b)).rotateLeaf_right hnode hsibling hhalf
      exact ⟨s₁, (Exec.bind_of_ok hcount).trans (Exec.bind_of_ok hrun)⟩

theorem borrowBranch_returns {parent node sibling : BranchPage} {parentSlotId : Nat}
    {leftSibling : Bool} (hslot : parentSlotId < parent.entries.length)
    (hparent : ¬ Γ.keep parent.page) (hnode : ¬ Γ.keep node.page) (hsibling : ¬ Γ.keep sibling.page)
    (h : Own Γ (b + (borrowBranch parent parentSlotId node sibling leftSibling).room Γ.P) r
      (parent.obj ::ₘ node.obj ::ₘ sibling.obj ::ₘ O) s)
    (htests : (borrowBranch parent parentSlotId node sibling leftSibling).tests Γ.env s =
      (.ok true, s')) :
    (borrowBranch parent parentSlotId node sibling leftSibling).Returns Γ.env s' := by
  obtain ⟨pp, tpar, par, kpar⟩ := parent
  obtain ⟨p, tp, es, ks⟩ := node
  obtain ⟨pk, tk, es', ks'⟩ := sibling
  have hmp : Obj.node p (.branch tp es ks) ∈
      .node pp (.branch tpar par kpar) ::ₘ .node p (.branch tp es ks) ::ₘ .node pk
        (.branch tk es' ks') ::ₘ O := by simp
  have hmk : Obj.node pk (.branch tk es' ks') ∈
      .node pp (.branch tpar par kpar) ::ₘ .node p (.branch tp es ks) ::ₘ .node pk
        (.branch tk es' ks') ::ₘ O := by simp
  obtain ⟨rfl, hshort, hlends⟩ := h.testsPair hmp hmk htests
  obtain ⟨-, htwo⟩ := hlends.2 rfl
  have hhalf : 2 * fill Γ.P es ≤ Γ.P - 18 := by
    have : 5 * fill Γ.P es < 2 * (Γ.P - 18) := hshort
    omega
  have hcount : Node.countOf pk s' = (.ok es'.length, s') := h.countOf hmk
  have hkpar : kpar.length = par.length + 1 := h.branch_kids_length (Multiset.mem_cons_self _ _)
  have hks : ks.length = es.length + 1 := h.branch_kids_length hmp
  have hks' : ks'.length = es'.length + 1 := h.branch_kids_length hmk
  have hslot' : parentSlotId < par.length := hslot
  have hu : par[parentSlotId]? = some par[parentSlotId] := List.getElem?_eq_getElem hslot'
  cases leftSibling with
  | true =>
    obtain rfl | ⟨S, w, rfl⟩ := List.eq_nil_or_concat' es'
    · exact absurd htwo (Nat.not_succ_le_zero 1)
    -- the last two children of the sibling
    obtain ⟨A, a, y, rfl, hA⟩ : ∃ A a y, ks' = A ++ [a, y] ∧ A.length = S.length := by
      obtain ⟨A, rest, rfl, hA⟩ :=
        ListAt.exists_split_le (l := ks') (i := S.length) (by rw [hks']; simp; omega)
      rw [List.length_append, List.length_append, List.length_singleton] at hks'
      obtain ⟨a, y, rfl⟩ := List.length_eq_two.1 (show rest.length = 2 by omega)
      exact ⟨A, a, y, rfl, hA⟩
    obtain ⟨s₁, bucket, run, hrun, -⟩ := h.rotateBranch_left hnode hsibling hu hA hhalf
    exact ⟨s₁, (Exec.bind_of_ok hcount).trans (Exec.bind_of_ok hrun)⟩
  | false =>
    obtain ⟨w, S, rfl⟩ :=
      List.exists_cons_of_length_pos (l := es') (Nat.lt_of_lt_of_le Nat.two_pos htwo)
    obtain ⟨y, K, rfl⟩ := List.exists_cons_of_length_pos (l := ks') (by omega)
    obtain ⟨A, a, rfl⟩ := (List.eq_nil_or_concat' ks).resolve_left fun hnil => by simp [hnil] at hks
    have hA : A.length = es.length := by simpa using hks
    obtain ⟨T₁, c, T₂, rfl, hT⟩ : ∃ T₁ c T₂, kpar = T₁ ++ c :: T₂ ∧ T₁.length = parentSlotId + 1 :=
      have hlt : parentSlotId + 1 < kpar.length := by omega
      ⟨kpar.take (parentSlotId + 1), kpar[parentSlotId + 1], kpar.drop (parentSlotId + 2),
        by rw [List.cons_getElem_drop_succ, List.take_append_drop], by rw [List.length_take]; omega⟩
    obtain ⟨s₁, bucket, run, hrun, -⟩ := h.rotateBranch_right hparent hnode hsibling hu hT hA hhalf
    exact ⟨s₁, (Exec.bind_of_ok hcount).trans (Exec.bind_of_ok hrun)⟩

theorem mergeLeaf_returns {node sibling : LeafPage} {leftSibling : Bool}
    (hnode : ¬ Γ.keep node.page) (hsibling : ¬ Γ.keep sibling.page)
    (h : Own Γ (b + (mergeLeaf node sibling leftSibling).room Γ.P) r
      (node.obj ::ₘ sibling.obj ::ₘ O) s)
    (htests : (mergeLeaf node sibling leftSibling).tests Γ.env s = (.ok true, s')) :
    (mergeLeaf node sibling leftSibling).Returns Γ.env s' := by
  obtain ⟨p, tp, es⟩ := node
  obtain ⟨pk, tk, es'⟩ := sibling
  obtain ⟨rfl, hshort, hlends⟩ := h.testsPair (Multiset.mem_cons_self _ _)
    (Multiset.mem_cons_of_mem (Multiset.mem_cons_self _ _)) htests
  have hshort' : 5 * fill Γ.P es < 2 * (Γ.P - 18) := hshort
  have hhalf : 2 * fill Γ.P es' ≤ Γ.P - 18 :=
    half_of_not_lends Γ.hP fun hno => absurd (hlends.1 hno) (by decide)
  have hslots := slotFits_pair Γ.hP hshort' hhalf
  unfold Rebalance.room at h
  cases leftSibling with
  | true =>
    have h₀ : Own Γ (b + entriesPages Γ.P es) r
        (.node pk (.leaf tk es') ::ₘ .node p (.leaf tp es) ::ₘ O) s' :=
      (h.room_mono _ (by simp only; omega)).perm (Multiset.cons_swap _ _ _)
    have hslots' : SlotFits Γ.P (es' ++ es) := by
      unfold SlotFits at hslots ⊢
      rw [List.length_append] at hslots ⊢
      omega
    obtain ⟨_, s₁, hrun, -⟩ := mergeLeaf_ok hsibling h₀ (by omega) hslots'
    exact ⟨s₁, hrun⟩
  | false =>
    have h₀ : Own Γ (b + entriesPages Γ.P es') r
        (.node p (.leaf tp es) ::ₘ .node pk (.leaf tk es') ::ₘ O) s' :=
      h.room_mono _ (by simp only; omega)
    obtain ⟨_, s₁, hrun, -⟩ := mergeLeaf_ok hnode h₀ (by omega) hslots
    exact ⟨s₁, hrun⟩

/-- The one place where the code can run out of space. -/
theorem mergeBranch_returns_iff {parent node sibling : BranchPage} {parentSlotId : Nat}
    {leftSibling : Bool} (hslot : parentSlotId < parent.entries.length) (hnode : ¬ Γ.keep node.page)
    (hsibling : ¬ Γ.keep sibling.page)
    (h : Own Γ (b + (mergeBranch parent parentSlotId node sibling leftSibling).room Γ.P) r
      (parent.obj ::ₘ node.obj ::ₘ sibling.obj ::ₘ O) s)
    (htests : (mergeBranch parent parentSlotId node sibling leftSibling).tests Γ.env s =
      (.ok true, s')) :
    (mergeBranch parent parentSlotId node sibling leftSibling).Returns Γ.env s' ↔
      (mergeBranch parent parentSlotId node sibling leftSibling).HasRoom Γ.P := by
  obtain ⟨pp, tpar, par, kpar⟩ := parent
  obtain ⟨p, tp, es, ks⟩ := node
  obtain ⟨pk, tk, es', ks'⟩ := sibling
  have hmp : Obj.node p (.branch tp es ks) ∈
      .node pp (.branch tpar par kpar) ::ₘ .node p (.branch tp es ks) ::ₘ .node pk
        (.branch tk es' ks') ::ₘ O := by simp
  have hmk : Obj.node pk (.branch tk es' ks') ∈
      .node pp (.branch tpar par kpar) ::ₘ .node p (.branch tp es ks) ::ₘ .node pk
        (.branch tk es' ks') ::ₘ O := by simp
  -- What the tests of `Delete` found: a short node, and a sibling that cannot spare a key.
  obtain ⟨rfl, hshort, hlends⟩ := h.testsPair hmp hmk htests
  have hshort' : 5 * fill Γ.P es < 2 * (Γ.P - 18) := hshort
  have hhalf : 2 * fill Γ.P es' ≤ Γ.P - 18 :=
    half_of_not_lends Γ.hP fun hno => absurd (hlends.1 hno) (by decide)
  have hslots := slotFits_pair Γ.hP hshort' hhalf
  have hslot' : parentSlotId < par.length := hslot
  set u := par[parentSlotId] with hu
  have hget : par[parentSlotId]? = some u := List.getElem?_eq_getElem hslot'
  have hdown : Node.getKey Γ.env pp parentSlotId s' = (.ok u.key, s') :=
    h.getKey (Multiset.mem_cons_self _ _) hget
  have hadm : Admissible Γ.P u.key [] :=
    h.key_admissible (Multiset.mem_cons_self _ _) (List.mem_of_getElem? hget)
  have hone := recordPages_le_one Γ.P_pos hadm
  have hkey : BranchPage.key ⟨pp, tpar, par, kpar⟩ parentSlotId = u.key := by
    show (par[parentSlotId]?.map Entry.key).getD [] = u.key
    rw [hget]
    rfl
  unfold HasRoom
  simp only [hkey]
  unfold Rebalance.room at h
  -- The node on the left takes the key from above and all keys of the node on the right.
  cases leftSibling with
  | true =>
    have h₀ : Own Γ (b + (entriesPages Γ.P es + recordPages Γ.P u.key [])) r
        (.node pk (.branch tk es' ks') ::ₘ .node p (.branch tp es ks) ::ₘ
          .node pp (.branch tpar par kpar) ::ₘ O) s' :=
      (h.room_mono _ (by simp only; omega)).perm (by
        unfold BranchPage.obj
        simp only [← Multiset.singleton_add]
        abel)
    have hslots' : SlotFits Γ.P (es' ++ es) := by
      unfold SlotFits at hslots ⊢
      rw [List.length_append] at hslots ⊢
      omega
    obtain ⟨hok, hfails⟩ := mergeBranch_ok hsibling hadm h₀ hslots'
    constructor
    · rintro ⟨s₁, hrun⟩
      by_contra hover
      obtain ⟨err, s₂, herror⟩ := hfails (by omega)
      cases ((Exec.bind_of_ok hdown).trans herror).symm.trans hrun
    · intro hfit
      obtain ⟨_, s₁, hrun, -⟩ := hok (by omega)
      exact ⟨s₁, (Exec.bind_of_ok hdown).trans hrun⟩
  | false =>
    have h₀ : Own Γ (b + (entriesPages Γ.P es' + recordPages Γ.P u.key [])) r
        (.node p (.branch tp es ks) ::ₘ .node pk (.branch tk es' ks') ::ₘ
          .node pp (.branch tpar par kpar) ::ₘ O) s' :=
      (h.room_mono _ (by simp only; omega)).perm (by
        unfold BranchPage.obj
        simp only [← Multiset.singleton_add]
        abel)
    obtain ⟨hok, hfails⟩ := mergeBranch_ok hnode hadm h₀ hslots
    constructor
    · rintro ⟨s₁, hrun⟩
      by_contra hover
      obtain ⟨err, s₂, herror⟩ := hfails (by omega)
      cases ((Exec.bind_of_ok hdown).trans herror).symm.trans hrun
    · intro hfit
      obtain ⟨_, s₁, hrun, -⟩ := hok hfit
      exact ⟨s₁, (Exec.bind_of_ok hdown).trans hrun⟩

theorem pair_add (o o' : Obj) (O : Multiset Obj) :
    ({o, o'} : Multiset Obj) + O = o ::ₘ o' ::ₘ O := by
  rw [Multiset.insert_eq_cons, Multiset.cons_add, Multiset.singleton_add]

theorem triple_add (o o' o'' : Obj) (O : Multiset Obj) :
    ({o, o', o''} : Multiset Obj) + O = o ::ₘ o' ::ₘ o'' ::ₘ O := by
  rw [Multiset.insert_eq_cons, Multiset.cons_add, pair_add]

/-- **Rebalancing runs out of space only where two branches are merged**, and only when the
separator that descends between them is too large. -/
theorem returns_iff (x : Rebalance) (hvalid : x.Valid Γ.P) (hkeep : ∀ q ∈ x.pages, ¬ Γ.keep q)
    (h : Own Γ (b + x.room Γ.P) r (x.objs + O) s) (htests : x.tests Γ.env s = (.ok true, s')) :
    x.Returns Γ.env s' ↔ x.HasRoom Γ.P := by
  cases x with
  | splitLeaf left insertSlotId key value isBucket =>
    have h₀ : Own Γ _ r (left.obj ::ₘ O) s := h.perm (Multiset.singleton_add _ _)
    exact iff_of_true (splitLeaf_returns hvalid.1 hvalid.2 (hkeep _ (by simp [pages])) h₀ htests)
      trivial
  | splitBranch left insertSlotId insertKey insertRightChild =>
    have h₀ : Own Γ _ r (left.obj ::ₘ O) s := h.perm (Multiset.singleton_add _ _)
    exact iff_of_true (splitBranch_returns hvalid.1 hvalid.2 (hkeep _ (by simp [pages])) h₀ htests)
      trivial
  | borrowLeaf node sibling leftSibling =>
    have h₀ : Own Γ _ r (node.obj ::ₘ sibling.obj ::ₘ O) s := h.perm (pair_add _ _ _)
    exact iff_of_true
      (borrowLeaf_returns (hkeep _ (by simp [pages])) (hkeep _ (by simp [pages])) h₀ htests) trivial
  | borrowBranch parent parentSlotId node sibling leftSibling =>
    have h₀ : Own Γ _ r (parent.obj ::ₘ node.obj ::ₘ sibling.obj ::ₘ O) s :=
      h.perm (triple_add _ _ _ _)
    exact iff_of_true
      (borrowBranch_returns hvalid (hkeep _ (by simp [pages])) (hkeep _ (by simp [pages]))
      (hkeep _ (by simp [pages])) h₀ htests) trivial
  | mergeLeaf node sibling leftSibling =>
    have h₀ : Own Γ _ r (node.obj ::ₘ sibling.obj ::ₘ O) s := h.perm (pair_add _ _ _)
    exact iff_of_true
      (mergeLeaf_returns (hkeep _ (by simp [pages])) (hkeep _ (by simp [pages])) h₀ htests) trivial
  | mergeBranch parent parentSlotId node sibling leftSibling =>
    have h₀ : Own Γ _ r (parent.obj ::ₘ node.obj ::ₘ sibling.obj ::ₘ O) s :=
      h.perm (triple_add _ _ _ _)
    exact mergeBranch_returns_iff hvalid (hkeep _ (by simp [pages]))
      (hkeep _ (by simp [pages])) h₀ htests

/-! ## A separator without room -/

section Example

/-- Three branches: a root with the key `separator`, and two children with one key each. -/
def twoBranches (separator left right : Bytes) : List (Nat × NodeView) :=
  [(2, .branch 1 [keyEntry separator] [3, 4]), (3, .branch 1 [keyEntry left] [5, 6]),
    (4, .branch 1 [keyEntry right] [7, 8])]

def branchesState (separator left right : Bytes) : TxState :=
  layout 256 freshMeta 2 (twoBranches separator left right)

/-- The merge of the two children. -/
def mergeTwo (separator left right : Bytes) : Rebalance :=
  .mergeBranch ⟨2, 1, [keyEntry separator], [3, 4]⟩ 0 ⟨3, 1, [keyEntry left], [5, 6]⟩
    ⟨4, 1, [keyEntry right], [7, 8]⟩ false

theorem own_twoBranches {separator left right : Bytes}
    (hlays : ∀ n ∈ twoBranches separator left right, n.2.Lays 256) :
    Own (layoutScope smallEnv smallEnv_ok freshMeta 3) (0 + 1) 2
      ((mergeTwo separator left right).objs + 0) (branchesState separator left right) := by
  have hroom : (twoBranches separator left right).length + 2 + 1 ≤ kPageMaxCount := by
    show 3 + 2 + 1 ≤ kPageMaxCount
    decide
  exact (own_layout hlays (List.Perm.refl _) hroom).perm (add_zero _).symm

/-- Two branches with short keys around a short separator are merged. -/
theorem returns_short : (mergeTwo [2] [1] [3]).Returns smallEnv (branchesState [2] [1] [3]) :=
  (returns_iff (mergeTwo [2] [1] [3]) Nat.one_pos (fun _ _ hk => hk) (own_twoBranches (by decide))
    (Prod.ext (by decide +kernel) (by rfl))).2 (by decide)

/-- A key of `n` bytes. -/
def paddedKey (first : UInt8) (n : ℕ) : Bytes := first :: List.replicate (n - 1) 0

/-- Seven keys with the lengths of their values: the records have 111 bytes each, the largest size
that is stored in a page of 256 bytes. -/
def sevenRecords : List (Bytes × ℕ) :=
  [(paddedKey 0 1, 110), (paddedKey 1 20, 91), (paddedKey 2 40, 71), (paddedKey 9 111, 0),
    (paddedKey 10 111, 0), (paddedKey 5 111, 0), (paddedKey 6 111, 0)]

def putRecords : TxM Unit := sevenRecords.forM fun record =>
  BTree.put smallEnv record.1 (List.replicate record.2 0) false

/-- **Rebalancing can run out of space.** The key of a branch and its sibling's fill less than half
of a page each, and the separator does not fit in between; seven insertions into a new file and a
deletion get there. -/
theorem not_always_returns :
    (∃ (Γ : PageScope) (b r : ℕ) (O : Multiset Obj) (s s' : TxState) (x : Rebalance), x.Valid Γ.P ∧
      (∀ q ∈ x.pages, ¬ Γ.keep q) ∧ Own Γ (b + x.room Γ.P) r (x.objs + O) s ∧
      x.tests Γ.env s = (.ok true, s') ∧ ¬ x.Returns Γ.env s') ∧
    (putRecords (layout 256 freshMeta kPageInvalidId [])).1 = .ok () ∧
    (BTree.delete smallEnv (paddedKey 1 20)
      (putRecords (layout 256 freshMeta kPageInvalidId [])).2).1 = .error .assertion := by
  refine ⟨⟨_, 0, 2, 0, _, _, mergeTwo (paddedKey 5 111) (paddedKey 1 20) (paddedKey 9 111),
    Nat.one_pos, fun _ _ hk => hk, own_twoBranches (by decide), Prod.ext (by decide +kernel) rfl,
      ?_⟩, by decide +kernel, by decide +kernel⟩
  rintro ⟨s₁, hrun⟩
  have herror : ((mergeTwo (paddedKey 5 111) (paddedKey 1 20) (paddedKey 9 111)).exec smallEnv
    (branchesState (paddedKey 5 111) (paddedKey 1 20) (paddedKey 9 111))).1 =
      .error .assertion := by decide +kernel
  cases herror.symm.trans (congrArg Prod.fst hrun)

end Example

end Rebalance

end AtomKV

import AtomKV.PutBranch

/-!
# Well-formed trees

`WellFormed Γ b t O s` says that the state `s` holds the tree `t`, apart from the objects `O`: the
tree's nodes and the overflow runs of its records are in their pages, every page is accounted for
once, the in-order sequence is sorted, no node is empty except possibly a leaf at the root, and the
pages that the transaction would write in place are its own. A lookup in such a state is a search in
the tree's records.
-/

set_option autoImplicit false

namespace AtomKV

/-- A B+tree, or none yet. -/
inductive Shape where
  | empty
  | tree {D : ℕ} (t : Tree D)

namespace Shape

def pgid : Shape → Nat
  | empty => kPageInvalidId
  | tree t => t.pgid

def objs : Shape → Multiset Obj
  | empty => 0
  | tree t => t.objs

def flat : Shape → List Item
  | empty => []
  | tree t => t.flat

def contents (t : Shape) : List (Bytes × Bytes × Bool) := records t.flat

/-- A record or a separator has the key. -/
def HasKey (t : Shape) (key : Bytes) : Prop := ∃ x ∈ t.flat, x.key = key

def Ordered (cmp : Bytes → Bytes → Ordering) (t : Shape) : Prop := t.flat.Pairwise (Item.Below cmp)

def RootFull : Shape → Prop
  | empty => True
  | tree t => t.RootFull

def Safe (need : Nat → Bool) (keep : Nat → Prop) : Shape → Prop
  | empty => True
  | tree t => t.Safe need keep

end Shape

/-- The state holds the tree `t` and the objects `O`. -/
structure WellFormed (Γ : Scope) (b : ℕ) (t : Shape) (O : Multiset Obj) (s : TxState) : Prop where
  own : Own Γ b t.pgid (t.objs + O) s
  ordered : t.Ordered Γ.env.comparator
  full : t.RootFull
  safe : t.Safe Γ.need Γ.keep

/-! ## Every page is a child once -/

section Once

/-- How often `x` is a child of the nodes. -/
def childCount (N : Multiset Obj) (x : Nat) : ℕ :=
  (N.map fun
    | .node _ v => (v.kids.getD []).count x
    | _ => 0).sum

/-- How many nodes are at the page `x`. -/
def nodeCount (N : Multiset Obj) (x : Nat) : ℕ :=
  (N.map fun
    | .node p _ => if p = x then 1 else 0
    | _ => 0).sum

@[simp] theorem childCount_zero (x : Nat) : childCount 0 x = 0 := rfl

@[simp] theorem nodeCount_zero (x : Nat) : nodeCount 0 x = 0 := rfl

@[simp] theorem childCount_cons_node (p : Nat) (v : NodeView) (N : Multiset Obj) (x : Nat) :
    childCount (.node p v ::ₘ N) x = (v.kids.getD []).count x + childCount N x := by
  simp [childCount]

@[simp] theorem nodeCount_cons_node (p : Nat) (v : NodeView) (N : Multiset Obj) (x : Nat) :
    nodeCount (.node p v ::ₘ N) x = (if p = x then 1 else 0) + nodeCount N x := by
  simp [nodeCount]

@[simp] theorem childCount_add (N N' : Multiset Obj) (x : Nat) :
    childCount (N + N') x = childCount N x + childCount N' x := by
  simp [childCount]

@[simp] theorem nodeCount_add (N N' : Multiset Obj) (x : Nat) :
    nodeCount (N + N') x = nodeCount N x + nodeCount N' x := by
  simp [nodeCount]

/-- Every node of a tree but the root is the child of one node. -/
theorem Tree.childCount_objs {d : ℕ} (t : Tree d) (x : Nat) :
    childCount t.objs x + (if t.pgid = x then 1 else 0) = nodeCount t.objs x := by
  induction d with
  | zero =>
    obtain ⟨p, txid, es, rfl⟩ := t.exists_leaf
    rw [Tree.objs_leaf, Tree.pgid_leaf, ← Multiset.cons_zero, childCount_cons_node,
      nodeCount_cons_node]
    simp
  | succ d ih =>
    obtain ⟨p, txid, es, kids, len, rfl⟩ := t.exists_branch
    have hkids : ∀ ks : List (Tree d), (ks.map Tree.pgid).count x +
        childCount (ks.map Tree.objs).sum x = nodeCount (ks.map Tree.objs).sum x := by
      intro ks
      induction ks with
      | nil => rfl
      | cons k ks ihk =>
        have hk := ih k
        simp only [List.map_cons, List.sum_cons, childCount_add, nodeCount_add,
          List.count_cons, beq_iff_eq]
        omega
    have h := hkids kids
    rw [Tree.objs_branch, Tree.pgid_branch, childCount_cons_node, nodeCount_cons_node]
    show (kids.map Tree.pgid).count x + _ + _ = _
    omega

/-- The children of a tree's nodes are in the tree. -/
theorem Tree.child_mem {d : ℕ} (t : Tree d) {p txid x : Nat} {es : List Entry} {kids : List Nat}
    (h : Obj.node p (.branch txid es kids) ∈ t.objs) (hx : x ∈ kids) :
      ∃ v, Obj.node x v ∈ t.objs := by
  induction d with
  | zero =>
    obtain ⟨q, txid', es', rfl⟩ := t.exists_leaf
    have := Multiset.mem_singleton.1 h
    simp at this
  | succ d ih =>
    obtain ⟨q, txid', es', ks, len, rfl⟩ := t.exists_branch
    rw [Tree.objs_branch] at h ⊢
    rcases Multiset.mem_cons.1 h with h | h
    · simp only [Obj.node.injEq, NodeView.mk.injEq, Option.some.injEq] at h
      obtain ⟨k, hk, rfl⟩ := List.mem_map.1 (h.2.2.2 ▸ hx)
      obtain ⟨v, hv⟩ := k.exists_root
      exact ⟨v, Multiset.mem_cons_of_mem (Tree.mem_sum_objs.2 ⟨k, hk, hv⟩)⟩
    · obtain ⟨k, hk, h⟩ := Tree.mem_sum_objs.1 h
      obtain ⟨v, hv⟩ := ih k h
      exact ⟨v, Multiset.mem_cons_of_mem (Tree.mem_sum_objs.2 ⟨k, hk, hv⟩)⟩

variable {Γ : Scope} {b : ℕ} {O : Multiset Obj} {s : TxState}

theorem Own.nodeCount_le {r : Nat} {N : Multiset Obj} (h : Own Γ b r (N + O) s) (x : Nat) :
    nodeCount N x ≤ 1 := by
  have key : ∀ M : Multiset Obj, nodeCount M x ≤ objsCount Γ.P M x := by
    intro M
    induction M using Multiset.induction_on with
    | empty => rfl
    | cons o M ih =>
      rw [objsCount_cons]
      cases o with
      | node p v =>
        rw [nodeCount_cons_node]
        have : (if p = x then 1 else 0) ≤ objCount Γ.P (.node p v) x := by
          split_ifs with hp
          · rw [← hp]
            exact Own.node_pos p v
          · exact Nat.zero_le _
        omega
      | page p c => exact ih.trans (Nat.le_add_left _ _) |>.trans' (by simp [nodeCount])
      | area p n => exact ih.trans (Nat.le_add_left _ _) |>.trans' (by simp [nodeCount])
      | junk p n => exact ih.trans (Nat.le_add_left _ _) |>.trans' (by simp [nodeCount])
      | run p bytes => exact ih.trans (Nat.le_add_left _ _) |>.trans' (by simp [nodeCount])
  have h1 := h.count x
  have h2 := key N
  rw [objsCount_add] at h1
  split_ifs at h1 <;> omega

theorem Shape.node_of_mem (t : Shape) {o : Obj} (h : o ∈ t.objs) : ∃ q v, o = .node q v := by
  cases t with
  | empty => exact absurd h (Multiset.notMem_zero _)
  | tree t => exact t.node_of_mem h

/-- A child of one of the tree's branches is the root of a part of the tree. -/
theorem WellFormed.of_child {t : Shape} (h : WellFormed Γ b t O s) {p x : Nat} {v : NodeView}
    (hm : Obj.node p v ∈ t.objs) (hx : s.Child p x) : x ∈ v.kids.getD [] ∧
    ∃ w, Obj.node x w ∈ t.objs := by
  obtain ⟨-, n, hpage, hbranch, hmem⟩ := hx
  obtain ⟨n', hrep, -, hpage', -⟩ := h.own.read_of_mem (Multiset.mem_add.2 (.inl hm))
  rw [hpage] at hpage'
  obtain rfl := Page.node.inj hpage'
  obtain ⟨txid, es, kids⟩ := v
  cases kids with
  | none =>
    have := hrep.isBranch_eq
    rw [hbranch] at this
    cases this
  | some kids =>
    have hkids : x ∈ kids := by
      rw [← hrep.body.2.2]
      exact hmem
    refine ⟨hkids, ?_⟩
    cases t with
    | empty => exact absurd hm (Multiset.notMem_zero _)
    | tree t => exact t.child_mem hm hkids

/-- The pages that are reachable are the tree's. -/
theorem WellFormed.of_reaches {t : Shape} (h : WellFormed Γ b t O s) {p : Nat} (hp : s.Reaches p) :
    p = kPageInvalidId ∨ ∃ v, Obj.node p v ∈ t.objs := by
  induction hp with
  | root =>
    have hroot : s.rootPgid = t.pgid := h.own.root
    rw [hroot]
    cases t with
    | empty => exact .inl rfl
    | tree t => exact .inr t.exists_root
  | child _ hx ih =>
    rcases ih with rfl | ⟨v, hv⟩
    · have hlt := hx.1
      unfold kPageInvalidId kPageMaxCount at hlt
      omega
    · exact .inr (h.of_child hv hx).2

/-- **In a well-formed tree no child is shared.** -/
theorem WellFormed.not_sharesChild {t : Shape} (h : WellFormed Γ b t O s) : ¬ s.SharesChild := by
  rintro ⟨p, q, x, hne, hp, hq, hpx, hqx⟩
  -- both parents are nodes of the tree, as all that is reached from the root
  have hnode : ∀ p, s.Reaches p → s.Child p x →
      ∃ v, Obj.node p v ∈ t.objs ∧ x ∈ v.kids.getD [] := by
    intro p hp hpx
    rcases h.of_reaches hp with rfl | ⟨v, hv⟩
    · have hlt := hpx.1
      unfold kPageInvalidId kPageMaxCount at hlt
      omega
    · exact ⟨v, hv, (h.of_child hv hpx).1⟩
  obtain ⟨v, hv, hxv⟩ := hnode p hp hpx
  obtain ⟨w, hw, hxw⟩ := hnode q hq hqx
  obtain ⟨N, hN⟩ := Multiset.exists_cons_of_mem hv
  have hw' : Obj.node q w ∈ N := by
    rw [hN] at hw
    rcases Multiset.mem_cons.1 hw with he | hw
    · simp only [Obj.node.injEq] at he
      exact absurd he.1.symm hne
    · exact hw
  obtain ⟨N', rfl⟩ := Multiset.exists_cons_of_mem hw'
  -- a child with two parents is counted twice, and owned once
  have hle := h.own.nodeCount_le x
  have hcount : childCount t.objs x ≤ nodeCount t.objs x := by
    cases t with
    | empty => exact Nat.le_refl _
    | tree t =>
      have := t.childCount_objs x
      show childCount t.objs x ≤ nodeCount t.objs x
      omega
  have h1 := List.count_pos_iff.2 hxv
  have h2 := List.count_pos_iff.2 hxw
  have h3 : childCount t.objs x = _ := congrArg (fun M => childCount M x) hN
  rw [childCount_cons_node, childCount_cons_node] at h3
  omega

end Once

/-! ## Lookup -/

/-- What a caller sees of `key` through `BTree::Get`: the value and the bucket flag at the iterator.
-/
def BTree.lookup (env : Env) (key : Bytes) : TxM (Option (Bytes × Bool)) := do
  let iter ← BTree.get env key
  if iter.status ≠ .kEq then return none
  let value ← BTreeIterator.value env iter
  let b ← BTreeIterator.isBucket iter
  return some (value, b)

/-- Without a root page the descent does not start. -/
theorem BTree.lowerBound_empty (env : Env) (key : Bytes) {s : TxState}
    (h : s.rootPgid = kPageInvalidId) :
    BTree.lowerBound env key s = (.ok BTreeIterator.init, s) := by
  have hpage : BTreeIterator.downPage BTreeIterator.init s = (.ok none, s) := by
    unfold BTreeIterator.downPage
    simp only [BTreeIterator.init]
    rw [Exec.read_bind, h, if_pos rfl]
    rfl
  have hdown : BTreeIterator.down env BTreeIterator.init key s =
      (.ok (false, BTreeIterator.init), s) := by
    unfold BTreeIterator.down
    rw [Exec.bind_of_ok hpage]
    rfl
  unfold BTree.lowerBound BTreeIterator.descend
  rw [Exec.bind_of_ok hdown]
  rfl

/-- The record of `key` in a list of records. -/
def find (key : Bytes) (l : List (Bytes × Bytes × Bool)) : Option (Bytes × Bool) :=
  (l.find? fun d => d.1 = key).map Prod.snd

theorem find_append (key : Bytes) (l l' : List (Bytes × Bytes × Bool)) :
    find key (l ++ l') = (find key l).or (find key l') := by
  unfold find
  rw [List.find?_append]
  cases List.find? _ l <;> rfl

theorem find_eq_none {key : Bytes} {l : List (Bytes × Bytes × Bool)} (h : ∀ d ∈ l, d.1 ≠ key) :
    find key l = none := by
  unfold find
  rw [List.find?_eq_none.2 (by simpa using h)]
  rfl

theorem mem_records {items : List Item} {d : Bytes × Bytes × Bool} :
    d ∈ records items ↔ Item.record d ∈ items := by
  unfold records
  rw [List.mem_filterMap]
  constructor
  · rintro ⟨x, hx, hd⟩
    cases x with
    | record d' =>
      obtain rfl : d' = d := by simpa using hd
      exact hx
    | separator k => simp at hd
  · exact fun h => ⟨_, h, rfl⟩

section Lookup

variable {Γ : Scope} {b : ℕ} {O : Multiset Obj} {s : TxState} {key : Bytes} {D : ℕ}

/-- The in-order sequence around a place. -/
theorem Place.flat_tree (p : Place D) : p.tree.flat =
    (p.ctx.before ++ recordItems p.left) ++
      (recordItems p.hit.toList ++ (recordItems p.right ++ p.ctx.after)) := by
  unfold Place.tree Place.entries
  rw [Ctx.flat_plug, Tree.flat_leaf]
  simp only [recordItems_append, List.append_assoc]

variable {p : Place D} {t : Tree D}

theorem Place.At.ne_of_low (h : p.At Γ.env.comparator key t) {d : Bytes × Bytes × Bool}
    (hd : d ∈ records (p.ctx.before ++ recordItems p.left)) : Γ.env.comparator d.1 key = .lt :=
  h.low _ (mem_records.1 hd)

theorem Place.At.ne_of_high (h : p.At Γ.env.comparator key t) {d : Bytes × Bytes × Bool}
    (hd : d ∈ records (recordItems p.right ++ p.ctx.after)) : Γ.env.comparator key d.1 = .lt :=
  h.high _ (mem_records.1 hd)

/-- At the place of a key the tree's records fall into three parts. -/
theorem Place.At.contents_eq {cmp : Bytes → Bytes → Ordering} (h : p.At cmp key t) :
    records t.flat = records (p.ctx.before ++ recordItems p.left) ++
      (p.hit.toList.map Entry.data ++ records (recordItems p.right ++ p.ctx.after)) := by
  rw [← h.tree_eq, p.flat_tree, records_append, records_append (recordItems p.hit.toList),
    records_recordItems]

theorem Place.At.find_eq (h : p.At Γ.env.comparator key t) :
    find key (records t.flat) = p.hit.map fun e => (e.value, e.isBucket) := by
  have := Γ.ok.trans
  have hne : ∀ k, Γ.env.comparator k key = .lt → k ≠ key := by
    rintro k hk rfl
    exact Compare.irrefl _ hk
  have hne' : ∀ k, Γ.env.comparator key k = .lt → k ≠ key := by
    rintro k hk rfl
    exact Compare.irrefl _ hk
  rw [h.contents_eq, find_append, find_eq_none fun d hd => hne d.1 (h.ne_of_low hd), Option.none_or,
    find_append, find_eq_none (l := records (recordItems p.right ++ p.ctx.after)) fun d hd =>
      hne' d.1 (h.ne_of_high hd), Option.or_none]
  cases hhit : p.hit with
  | none => rfl
  | some e =>
    have hkey := h.hit_key e hhit
    simp [find, Entry.data, hkey]

/-- **Lookup.** What `Get` shows of a key is its record among the tree's records. -/
theorem WellFormed.lookup {t : Shape} (h : WellFormed Γ b t O s) (key : Bytes) :
    BTree.lookup Γ.env key s = (.ok (find key t.contents), s) := by
  cases t with
  | empty =>
    have hroot : s.rootPgid = kPageInvalidId := h.own.root
    have hlower := BTree.lowerBound_empty Γ.env key hroot
    unfold BTree.lookup BTree.get
    rw [bind_assoc, Exec.bind_of_ok hlower]
    rfl
  | tree t =>
    obtain ⟨p, status, hp, hstatus, hlower⟩ := h.own.treeLowerBound h.ordered h.full key
    have hfind : find key (Shape.tree t).contents = p.hit.map fun e => (e.value, e.isBucket) :=
      hp.find_eq
    rw [hfind]
    have hmem : Obj.node p.pgid (.leaf p.txid p.entries) ∈ t.objs + O := by
      rw [← hp.tree_eq]
      exact Multiset.mem_add.2 (.inl (p.ctx.mem_objs_plug (Multiset.mem_singleton_self _)))
    unfold BTree.lookup BTree.get
    rw [bind_assoc, Exec.bind_of_ok hlower]
    -- The status says whether the place is that of the key, and `Get` goes by the status.
    cases hhit : p.hit with
    | none =>
      have hne : status ≠ .kEq := fun he => by
        have := hstatus.1 he
        rw [hhit] at this
        cases this
      rw [if_pos hne]
      rfl
    | some e =>
      obtain rfl : status = .kEq := hstatus.2 (by rw [hhit]; rfl)
      have hentry : p.entries[p.left.length]? = some e := by
        unfold Place.entries
        rw [hhit]
        simp
      have hleaf : BTreeIterator.getLeafNode ⟨p.stack, .kEq⟩ s = (.ok (p.pgid, p.left.length), s) :=
        rfl
      have hvalue : BTreeIterator.value Γ.env ⟨p.stack, .kEq⟩ s = (.ok e.value, s) := by
        unfold BTreeIterator.value
        rw [Exec.bind_of_ok hleaf]
        exact h.own.getValue hmem hentry
      have hbucket : BTreeIterator.isBucket ⟨p.stack, .kEq⟩ s = (.ok e.isBucket, s) := by
        unfold BTreeIterator.isBucket
        rw [Exec.bind_of_ok hleaf]
        exact h.own.isBucket hmem hentry
      rw [if_neg (fun hne => hne rfl), Exec.pure_bind_apply, if_neg (fun hne => hne rfl),
        Exec.bind_of_ok hvalue, Exec.bind_of_ok hbucket]
      rfl

end Lookup

end AtomKV

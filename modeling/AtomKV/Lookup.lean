import AtomKV.Layout
import AtomKV.Iteration

/-!
# Lookups

`BTree::Get` and `BTree::LowerBound` on a tree that is in its pages, in whatever transaction it
is read: `Shows env t s` is all that they rely on. `Get` finds the record of its key.
`LowerBound` stops at the end of the leaf that the separators lead to, also when the next record
is in the leaf behind it.
-/

set_option autoImplicit false

namespace AtomKV

/-! ## Trees that can be read -/

def Shape.Keyed : Shape → Prop
  | .empty => True
  | .tree t => t.Keyed

/-- The root page of the state is the root of the tree `t`: its nodes are in pages of their own, its
in-order sequence is sorted, and its branches have keys. -/
structure Shows (env : Env) (t : Shape) (s : TxState) : Prop where
  root : s.rootPgid = t.pgid
  readable : Readable env t.objs s
  once : ∀ x, nodeCount t.objs x ≤ 1
  ordered : t.Ordered env.comparator
  keyed : t.Keyed

theorem Shape.RootFull.keyed {t : Shape} (h : t.RootFull) : t.Keyed := by
  cases t with
  | empty => trivial
  | tree t => exact Tree.RootFull.keyed h

/-- What a write transaction works on can be read. -/
theorem WellFormed.shows {Γ : Scope} {b : ℕ} {t : Shape} {O : Multiset Obj} {s : TxState}
    (h : WellFormed Γ b t O s) : Shows Γ.env t s where
  root := h.own.root
  readable := h.own.readable.mono fun _ ho => Multiset.mem_add.2 (.inl ho)
  once := h.own.nodeCount_le
  ordered := h.ordered
  keyed := Shape.RootFull.keyed h.full

/-- Nodes in pages of their own are not more than pages. -/
theorem card_le_of_once {N : Multiset Obj} {m : ℕ} (hN : ∀ o ∈ N, ∃ q v, o = .node q v ∧ q < m)
    (h : ∀ x, nodeCount N x ≤ 1) : N.card ≤ m := by
  have key : N.card = ∑ x ∈ Finset.range m, nodeCount N x := by
    clear h
    induction N using Multiset.induction_on with
    | empty => simp
    | cons o N ih =>
      obtain ⟨q, v, rfl, hq⟩ := hN o (Multiset.mem_cons_self _ _)
      have hrest := ih fun o ho => hN o (Multiset.mem_cons_of_mem ho)
      have hone : ∑ x ∈ Finset.range m, (if q = x then 1 else 0) = 1 := by
        rw [Finset.sum_ite_eq, if_pos (Finset.mem_range.2 hq)]
      simp only [nodeCount_cons_node, Finset.sum_add_distrib, Multiset.card_cons]
      omega
  calc N.card = ∑ x ∈ Finset.range m, nodeCount N x := key
    _ ≤ ∑ _x ∈ Finset.range m, 1 := Finset.sum_le_sum fun x _ => h x
    _ = m := by simp

section Tree

variable {env : Env} {s : TxState} {D : ℕ} {t : Tree D}

/-- The stack of an iterator holds every path of a tree whose branches have keys and whose nodes
have pages of their own: there are not enough page ids for a deeper one. -/
theorem Resident.depth_lt (h : Resident env t.objs s) (honce : ∀ x, nodeCount t.objs x ≤ 1)
    (hkeyed : t.Keyed) : D < kStackSize := by
  have hcard : t.objs.card ≤ kPageMaxCount := by
    refine card_le_of_once (fun o ho => ?_) honce
    obtain ⟨q, v, rfl⟩ := t.node_of_mem ho
    exact ⟨q, v, rfl, (h.nodeAt q v ho).lt⟩
  have hpow := t.two_pow_le_card hkeyed
  have hbound : 2 ^ D ≤ 2 ^ 31 := hpow.trans hcard
  have := (Nat.pow_le_pow_iff_right (show 1 < 2 by decide)).1 hbound
  unfold kStackSize
  omega

theorem Shows.depth_lt (h : Shows env (.tree t) s) : D < kStackSize :=
  h.readable.toResident.depth_lt h.once h.keyed

theorem Shows.lowerBound (h : Shows env (.tree t) s) (key : Bytes) :
    ∃ p : Place D, p.At env.comparator key t ∧
      BTree.lowerBound env key s = (.ok ⟨p.stack, p.status⟩, s) :=
  h.readable.treeLowerBound h.root (fun _ ho => ho) h.ordered h.depth_lt key

end Tree

/-! ## Iterators at a record -/

/-- What the caller reads at the iterator is the record `d`. -/
structure BTreeIterator.IsAt (env : Env) (s : TxState) (iter : BTreeIterator)
    (d : Bytes × Bytes × Bool) : Prop where
  key : iter.key env s = (.ok d.1, s)
  value : iter.value env s = (.ok d.2.1, s)
  isBucket : iter.isBucket s = (.ok d.2.2, s)

/-- `end()` is at no record. -/
theorem BTreeIterator.IsAt.not_isEnd {env : Env} {s : TxState} {iter : BTreeIterator}
    {d : Bytes × Bytes × Bool} (h : iter.IsAt env s d) : ¬ iter.isEnd := by
  intro hend
  have hleaf : iter.getLeafNode s = (.error (.invalidArgument "invalid iterator."), s) := by
    have hor : iter.stack = [] ∨ iter.status = .kInvalid := hend
    unfold BTreeIterator.getLeafNode
    rw [if_pos hor]
    rfl
  have hkey := h.key
  unfold BTreeIterator.key at hkey
  rw [Exec.bind_of_error hleaf] at hkey
  cases (Prod.mk.inj hkey).1

section Places

variable {env : Env} {s : TxState} {D : ℕ} {p : Place D}

/-- The leaf of a place is a node of the tree. -/
theorem Place.leaf_mem (p : Place D) : Obj.node p.pgid (.leaf p.txid p.entries) ∈ p.tree.objs :=
  p.ctx.mem_objs_plug (Multiset.mem_singleton_self _)

theorem Place.getElem?_entries {e : Entry} (hhit : p.hit = some e) :
    p.entries[p.left.length]? = some e := by
  unfold Place.entries
  rw [hhit]
  simp

/-- An iterator with the stack of a place at a record is at that record. -/
theorem Place.isAt (h : Readable env p.tree.objs s) {e : Entry}
    (hentry : p.entries[p.left.length]? = some e) {status : Status} (hstatus : status ≠ .kInvalid) :
      BTreeIterator.IsAt env s ⟨p.stack, status⟩ e.data := by
  have hleaf : BTreeIterator.getLeafNode ⟨p.stack, status⟩ s =
      (.ok (p.pgid, p.left.length), s) := by
    unfold BTreeIterator.getLeafNode
    rw [if_neg (fun hor => hor.elim (fun h => by cases h) hstatus)]
    rfl
  constructor
  · unfold BTreeIterator.key
    rw [Exec.bind_of_ok hleaf]
    exact h.getKey p.leaf_mem hentry
  · unfold BTreeIterator.value
    rw [Exec.bind_of_ok hleaf]
    exact h.getValue p.leaf_mem hentry
  · unfold BTreeIterator.isBucket
    rw [Exec.bind_of_ok hleaf]
    exact h.isBucket p.leaf_mem hentry

variable {cmp : Bytes → Bytes → Ordering} {key : Bytes} {t : Tree D}

/-- The record of the key is the one at its place. -/
theorem Place.At.eq_hit [Std.TransCmp cmp] (h : p.At cmp key t) {d : Bytes × Bytes × Bool}
    (hd : d ∈ t.contents) (hkey : d.1 = key) : ∃ e, p.hit = some e ∧ d = e.data := by
  have hflat : Item.record d ∈ t.flat := mem_records.1 hd
  rw [← h.tree_eq, p.flat_tree] at hflat
  rcases List.mem_append.1 hflat with hlow | hflat
  · have hlt : cmp d.1 key = .lt := h.low _ hlow
    rw [hkey] at hlt
    exact absurd hlt (Compare.irrefl key)
  rcases List.mem_append.1 hflat with hhit | hhigh
  · obtain ⟨e, he, heq⟩ := List.mem_map.1 hhit
    exact ⟨e, Option.mem_toList.1 he, (Item.record.inj heq).symm⟩
  · have hlt : cmp key d.1 = .lt := h.high _ hhigh
    rw [hkey] at hlt
    exact absurd hlt (Compare.irrefl key)

theorem Place.At.hit_mem (h : p.At cmp key t) {e : Entry} (hhit : p.hit = some e) :
    e.data ∈ t.contents := by
  refine mem_records.2 ?_
  rw [← h.tree_eq, p.flat_tree, hhit]
  simp

end Places

/-! ## Point lookup -/

/-- **`BTree::Get`.** The iterator is at the record of the key when the tree has one, and is
`end()` otherwise. -/
theorem Shows.get_finds {env : Env} {t : Shape} {s : TxState} (h : Shows env t s) (key : Bytes) :
    ∃ iter, BTree.get env key s = (.ok iter, s) ∧
      (∀ d ∈ t.contents, d.1 = key → iter.IsAt env s d) ∧
      ((∀ d ∈ t.contents, d.1 ≠ key) → iter = BTreeIterator.init) := by
  have := h.readable.ok.trans
  cases t with
  | empty =>
    -- no page is visited, and the iterator is the end
    have hlower := BTree.lowerBound_empty env key h.root
    refine ⟨BTreeIterator.init, ?_, fun d hd => absurd hd List.not_mem_nil, fun _ => rfl⟩
    unfold BTree.get
    rw [Exec.bind_of_ok hlower]
    rfl
  | tree t =>
    obtain ⟨p, hp, hlower⟩ := h.lowerBound key
    have hread : Readable env p.tree.objs s := hp.tree_eq ▸ h.readable
    cases hhit : p.hit with
    | none =>
      -- LowerBound stops at a record with another key, or behind the last one
      have hstatus : p.status ≠ .kEq := fun he => by
        have := p.status_eq_kEq.1 he
        rw [hhit] at this
        cases this
      refine ⟨BTreeIterator.init, ?_, fun d hd hkey => ?_, fun _ => rfl⟩
      · unfold BTree.get
        rw [Exec.bind_of_ok hlower, if_pos hstatus]
        rfl
      · obtain ⟨e, he, -⟩ := hp.eq_hit hd hkey
        rw [hhit] at he
        cases he
    | some e =>
      have hstatus : p.status = .kEq := p.status_eq_kEq.2 (by rw [hhit]; rfl)
      refine ⟨⟨p.stack, .kEq⟩, ?_, fun d hd hkey => ?_, fun hnone => ?_⟩
      · unfold BTree.get
        rw [Exec.bind_of_ok hlower, hstatus, if_neg (fun hne => hne rfl)]
        rfl
      · obtain ⟨e', he', rfl⟩ := hp.eq_hit hd hkey
        exact Place.isAt hread (Place.getElem?_entries he') (fun h => by cases h)
      · exact absurd (hp.hit_key e hhit) (hnone e.data (hp.hit_mem hhit))

section Example

/-- A value that takes up a good part of a page. -/
def longValue : Bytes := List.replicate 100 0

/-- Two leaves; the separator is the first key of the right one. -/
def twoLeaves : Tree 1 :=
  .branch 4 1 [⟨[2], [], false, 0⟩]
    [.leaf 2 1 [⟨[1], longValue, false, 0⟩],
      .leaf 3 1 [⟨[2], longValue, false, 0⟩, ⟨[9], longValue, false, 0⟩]] rfl

/-- A transaction that has just begun on the file with this tree. -/
def twoLeavesState : TxState := layout 256 freshMeta 4 twoLeaves.nodes

theorem wellFormed_twoLeaves :
    WellFormed (layoutScope smallEnv smallEnv_ok freshMeta 3) 0 (.tree twoLeaves) 0
    twoLeavesState :=
  wellFormed_layout (t := twoLeaves) (by decide) (by decide) (by decide) (by decide)
    (by unfold kPageMaxCount; show 3 + 2 + 0 ≤ _; omega)

theorem shows_twoLeaves : Shows smallEnv (.tree twoLeaves) twoLeavesState :=
  wellFormed_twoLeaves.shows

theorem fullRoot_twoLeaves : (Shape.tree twoLeaves).RootFull := show twoLeaves.RootFull by decide

/-- A key that is there, and one that is not. -/
theorem get_twoLeaves :
    (∃ iter, BTree.get smallEnv [2] twoLeavesState = (.ok iter, twoLeavesState) ∧
      iter.IsAt smallEnv twoLeavesState ([2], longValue, false)) ∧
    BTree.get smallEnv [5] twoLeavesState = (.ok BTreeIterator.init, twoLeavesState) := by
  obtain ⟨iter, hrun, hfound, -⟩ := shows_twoLeaves.get_finds [2]
  obtain ⟨iter', hrun', -, hnone⟩ := shows_twoLeaves.get_finds [5]
  refine ⟨⟨iter, hrun, hfound _ (by decide) rfl⟩, ?_⟩
  rw [hrun', hnone (by decide)]

end Example

/-! ## Lower bounds -/

/-- A tree without empty leaves has a record. -/
theorem Tree.Full.contents_ne_nil {d : ℕ} {t : Tree d} (h : t.Full) : t.contents ≠ [] := by
  induction d with
  | zero =>
    obtain ⟨p, txid, es, rfl⟩ := t.exists_leaf
    show records (recordItems es) ≠ []
    rw [records_recordItems]
    exact fun hnil => h (List.map_eq_nil_iff.1 hnil)
  | succ d ih =>
    obtain ⟨p, txid, es, kids, len, rfl⟩ := t.exists_branch
    cases kids with
    | nil => cases len
    | cons k ks =>
      have hk := ih (h.2 k List.mem_cons_self)
      show records (k.flat ++ weavePost (separatorItems es) (ks.map Tree.flat)) ≠ []
      rw [records_append]
      exact List.append_ne_nil_of_left_ne_nil hk _

theorem Frame.after_nil {d : ℕ} {f : Frame d} (hes : f.esR = []) : f.after = [] := by
  have hks : f.ksR = [] := List.length_eq_zero_iff.1 (by rw [f.lenR, hes]; rfl)
  unfold Frame.after
  rw [hes, hks]
  rfl

/-- What follows a child begins with the separator behind it and the next child. -/
theorem Frame.after_cons {d : ℕ} {f : Frame d} {e : Entry} {esR : List Entry} {k : Tree d}
    {ksR : List (Tree d)} (hes : f.esR = e :: esR) (hks : f.ksR = k :: ksR) :
    f.after = .separator e.key ::
      (k.flat ++ weavePost (separatorItems esR) (ksR.map Tree.flat)) := by
  unfold Frame.after
  rw [hes, hks, separatorItems_cons, List.map_cons, weavePost_cons, List.cons_append]

/-- What follows the hole begins with a separator, and has a record. -/
theorem Ctx.after_cases {d D : ℕ} (c : Ctx d D) (h : c.Full) :
    c.after = [] ∨ ∃ a rest, c.after = .separator a :: rest ∧ records rest ≠ [] := by
  induction c with
  | top => exact .inl rfl
  | under f c ih =>
    obtain ⟨hf, hc⟩ := h
    cases hes : f.esR with
    | nil =>
      show f.after ++ c.after = [] ∨ ∃ a rest, f.after ++ c.after = .separator a :: rest ∧
        records rest ≠ []
      rw [Frame.after_nil hes]
      exact ih hc
    | cons e esR =>
      obtain ⟨k, ksR, hks⟩ := List.exists_cons_of_length_eq_add_one (by rw [f.lenR, hes]; rfl)
      have hk : k.contents ≠ [] :=
        Tree.Full.contents_ne_nil (hf.2.2 k (by rw [hks]; exact List.mem_cons_self))
      refine .inr
        ⟨e.key, k.flat ++ weavePost (separatorItems esR) (ksR.map Tree.flat) ++ c.after, ?_, ?_⟩
      · show f.after ++ c.after = _
        rw [Frame.after_cons hes hks]
        rfl
      · rw [records_append, records_append]
        exact List.append_ne_nil_of_left_ne_nil (List.append_ne_nil_of_left_ne_nil hk _) _

/-- `d` is the first of the records whose key is not below `key`. -/
def IsLeast (cmp : Bytes → Bytes → Ordering) (key : Bytes) (l : List (Bytes × Bytes × Bool))
    (d : Bytes × Bytes × Bool) : Prop :=
  d ∈ l ∧ cmp d.1 key ≠ .lt ∧ ∀ d' ∈ l, cmp d'.1 key ≠ .lt → cmp d'.1 d.1 ≠ .lt

/-- `LowerBound` returns an iterator at the record with the least key that is not below `key`, which
is `end()` exactly when there is no such record. -/
def BTree.FindsLeast (env : Env) (t : Shape) (key : Bytes) (s : TxState) : Prop :=
  ∃ iter, BTree.lowerBound env key s = (.ok iter, s) ∧
    (∀ d, IsLeast env.comparator key t.contents d → iter.IsAt env s d) ∧
    (iter.isEnd ↔ ∀ d ∈ t.contents, env.comparator d.1 key = .lt)

/-- Between `key` and the next separator above it there is a record, and a tree with a root page
has a record. -/
def Shape.NoGap (cmp : Bytes → Bytes → Ordering) (key : Bytes) : Shape → Prop
  | .empty => True
  | .tree t => t.contents ≠ [] ∧ ∀ a, Item.separator a ∈ t.flat → cmp key a = .lt →
      ∃ d ∈ t.contents, cmp d.1 key ≠ .lt ∧ cmp d.1 a = .lt

theorem statusAt_eq_kInvalid (left : List Entry) (hit : Option Entry) (right : List Entry) :
    statusAt left hit right = .kInvalid ↔ hit = none ∧ left ≠ [] ∧ right = [] := by
  unfold statusAt
  cases hit with
  | none => simp
  | some e => simp

section LowerBound

variable {cmp : Bytes → Bytes → Ordering} {key : Bytes} {D : ℕ} {p : Place D} {t : Tree D}

theorem Place.isEnd_iff (p : Place D) :
    BTreeIterator.isEnd ⟨p.stack, p.status⟩ ↔ p.hit = none ∧ p.left ≠ [] ∧ p.right = [] := by
  rw [← statusAt_eq_kInvalid]
  constructor
  · intro h
    exact h.elim (fun hnil => by cases hnil) id
  · exact .inr

/-- A record that is not below the key is at its place or behind it. -/
theorem Place.At.mem_of_not_lt (h : p.At cmp key t) {d : Bytes × Bytes × Bool} (hd : d ∈ t.contents)
    (hkey : cmp d.1 key ≠ .lt) :
    Item.record d ∈ recordItems (p.hit.toList ++ p.right) ++ p.ctx.after := by
  have hflat : Item.record d ∈ t.flat := mem_records.1 hd
  rw [← h.tree_eq, p.flat_tree] at hflat
  rcases List.mem_append.1 hflat with hlow | hrest
  · exact absurd (h.low _ hlow) hkey
  · rw [recordItems_append, List.append_assoc]
    exact hrest

/-- A separator above the key is behind the leaf. -/
theorem Place.At.separator_mem_after (h : p.At cmp key t) {a : Bytes}
    (ha : Item.separator a ∈ t.flat) (hkey : cmp key a = .lt) : Item.separator a ∈ p.ctx.after := by
  rw [← h.tree_eq, p.flat_tree] at ha
  have hrecord : ∀ es : List Entry, Item.separator a ∉ recordItems es := fun es hmem => by
    obtain ⟨e, -, he⟩ := List.mem_map.1 hmem
    cases he
  rcases List.mem_append.1 ha with hlow | hrest
  · exact absurd hkey (h.low _ hlow)
  rcases List.mem_append.1 hrest with hhit | hhigh
  · exact absurd hhit (hrecord _)
  rcases List.mem_append.1 hhigh with hright | hafter
  · exact absurd hright (hrecord _)
  · exact hafter

theorem Place.ctx_full (p : Place D) (hfull : p.tree.RootFull) : p.ctx.Full := by
  obtain ⟨ctx, pgid, txid, left, hit, right⟩ := p
  cases ctx with
  | top => trivial
  | under f c => exact ((Ctx.rootFull_under f c _).1 hfull).1

/-- Only a leaf at the root is empty. -/
theorem Place.contents_of_entries_nil (p : Place D) (hfull : p.tree.RootFull)
    (hnil : p.entries = []) : p.tree.contents = [] := by
  obtain ⟨ctx, pgid, txid, left, hit, right⟩ := p
  cases ctx with
  | top =>
    exact congrArg (fun es => records (recordItems es)) hnil
  | under f c => exact absurd hnil ((Ctx.rootFull_under f c _).1 hfull).2

variable {env : Env} {s : TxState}

/-- When the leaf has a record that is not below the key, `LowerBound` is right. -/
theorem Shows.findsLeast_of_next (h : Shows env (.tree t) s) (hp : p.At env.comparator key t)
    (hlower : BTree.lowerBound env key s = (.ok ⟨p.stack, p.status⟩, s))
    {e : Entry} {es : List Entry} (hnext : p.hit.toList ++ p.right = e :: es) :
    BTree.FindsLeast env (.tree t) key s ∧ (Shape.tree t).NoGap env.comparator key := by
  have := h.readable.ok.trans
  have := h.readable.ok.lawfulEq
  have hread : Readable env p.tree.objs s := hp.tree_eq ▸ h.readable
  have hflat : t.flat = (p.ctx.before ++ recordItems p.left) ++
      (.record e.data :: (recordItems es ++ p.ctx.after)) := by
    rw [← hp.tree_eq, p.flat_tree, ← List.append_assoc (recordItems p.hit.toList),
      ← recordItems_append, hnext, recordItems_cons, List.cons_append]
  have hord : t.flat.Pairwise (Item.Below env.comparator) := h.ordered
  rw [hflat] at hord
  have hbehind := (List.pairwise_cons.1 (List.pairwise_append.1 hord).2.1).1
  have hmem : e.data ∈ t.contents := by
    refine mem_records.2 ?_
    rw [hflat]
    simp
  have hnotlt : env.comparator e.data.1 key ≠ .lt := by
    -- the first record from the place on is the key's own or above it
    cases hhit : p.hit with
    | none =>
      rw [hhit] at hnext
      have hright : Item.record e.data ∈ recordItems p.right ++ p.ctx.after := by
        rw [show p.right = e :: es from hnext]
        exact List.mem_cons_self
      exact Compare.not_lt_of_lt (hp.high _ hright)
    | some e' =>
      rw [hhit] at hnext
      obtain ⟨rfl, -⟩ := List.cons.inj hnext
      rw [show e'.data.1 = key from hp.hit_key e' hhit]
      exact Compare.irrefl key
  have hend : ¬ BTreeIterator.isEnd ⟨p.stack, p.status⟩ := by
    rw [p.isEnd_iff]
    rintro ⟨hhit, -, hright⟩
    rw [hhit, hright] at hnext
    cases hnext
  constructor
  · refine ⟨_, hlower, fun d hd => ?_, ?_⟩
    · obtain ⟨hmemd, hkey, hleast⟩ := hd
      have hfound := hp.mem_of_not_lt hmemd hkey
      rw [hnext, recordItems_cons, List.cons_append] at hfound
      rcases List.mem_cons.1 hfound with heq | hafter
      · obtain rfl := Item.record.inj heq
        refine Place.isAt hread ?_ fun hst => hend (.inr hst)
        unfold Place.entries
        rw [hnext]
        simp
      · exact absurd (hbehind _ hafter) (hleast _ hmem hnotlt)
    · constructor
      · exact fun hend' => absurd hend' hend
      · exact fun hall => absurd (hall _ hmem) hnotlt
  · refine ⟨List.ne_nil_of_mem hmem, fun a ha hkey => ⟨e.data, hmem, hnotlt, ?_⟩⟩
    exact hbehind _ (List.mem_append.2 (.inr (hp.separator_mem_after ha hkey)))

/-- When all records of the leaf are below the key, `LowerBound` is right if nothing follows the
leaf. -/
theorem Shows.findsLeast_iff_of_last (h : Shows env (.tree t) s) (hfull : t.RootFull)
    (hp : p.At env.comparator key t)
    (hlower : BTree.lowerBound env key s = (.ok ⟨p.stack, p.status⟩, s)) (hhit : p.hit = none)
    (hright : p.right = []) :
    BTree.FindsLeast env (.tree t) key s ↔ (Shape.tree t).NoGap env.comparator key := by
  have := h.readable.ok.trans
  have hfull' : p.tree.RootFull := hp.tree_eq.symm ▸ hfull
  by_cases hleft : p.left = []
  · -- an emptied leaf at the root
    have hnil : t.contents = [] := by
      rw [← hp.tree_eq]
      refine p.contents_of_entries_nil hfull' ?_
      unfold Place.entries
      rw [hhit, hright, hleft]
      rfl
    constructor
    · rintro ⟨iter, hlower', -, hend⟩
      obtain rfl := Except.ok.inj (Prod.mk.inj (hlower'.symm.trans hlower)).1
      have hall : ∀ d ∈ (Shape.tree t).contents, env.comparator d.1 key = .lt := fun d hd => by
        rw [show (Shape.tree t).contents = [] from hnil] at hd
        cases hd
      exact absurd hleft (p.isEnd_iff.1 (hend.2 hall)).2.1
    · exact fun hgap => absurd hnil hgap.1
  · have hend : BTreeIterator.isEnd ⟨p.stack, p.status⟩ := p.isEnd_iff.2 ⟨hhit, hleft, hright⟩
    have hcontents : t.contents =
        records (p.ctx.before ++ recordItems p.left) ++ records p.ctx.after := by
      have heq : records t.flat = _ := hp.contents_eq
      rw [hhit, hright] at heq
      exact heq
    have hpast : ∀ d ∈ records (p.ctx.before ++ recordItems p.left), env.comparator d.1 key = .lt :=
      fun d hd => hp.low _ (mem_records.1 hd)
    have hfinds : BTree.FindsLeast env (.tree t) key s ↔
        ∀ d ∈ t.contents, env.comparator d.1 key = .lt := by
      constructor
      · rintro ⟨iter, hlower', -, hiff⟩
        obtain rfl := Except.ok.inj (Prod.mk.inj (hlower'.symm.trans hlower)).1
        exact hiff.1 hend
      · intro hall
        refine ⟨_, hlower, fun d hd => absurd (hall d hd.1) hd.2.1, ?_⟩
        exact ⟨fun _ => hall, fun _ => hend⟩
    rw [hfinds]
    rcases p.ctx.after_cases (p.ctx_full hfull') with hafter | ⟨a, rest, hafter, hrest⟩
    · -- nothing follows
      constructor
      · refine fun _ => ⟨?_, fun a ha hkey => ?_⟩
        · rw [hcontents, records_append, records_recordItems]
          refine List.append_ne_nil_of_left_ne_nil (List.append_ne_nil_of_right_ne_nil _ ?_) _
          exact fun hnil => hleft (List.map_eq_nil_iff.1 hnil)
        · have hmem := hp.separator_mem_after ha hkey
          rw [hafter] at hmem
          cases hmem
      · intro _ d hd
        rw [hcontents, hafter] at hd
        exact (List.mem_append.1 hd).elim (hpast d) fun hnil => by cases hnil
    · -- the next record is behind a separator
      obtain ⟨d, hd⟩ := List.exists_mem_of_ne_nil _ hrest
      have hd' : Item.record d ∈ p.ctx.after := by
        rw [hafter]
        exact List.mem_cons_of_mem _ (mem_records.1 hd)
      have hmem : d ∈ t.contents := by
        rw [hcontents]
        exact List.mem_append.2 (.inr (mem_records.2 hd'))
      have habove : env.comparator key d.1 = .lt := hp.high _ (List.mem_append.2 (.inr hd'))
      constructor
      · exact fun hall => absurd (hall d hmem) (Compare.not_lt_of_lt habove)
      · rintro ⟨-, hgap⟩
        have ha : Item.separator a ∈ p.ctx.after := by
          rw [hafter]
          exact List.mem_cons_self
        have hat : Item.separator a ∈ t.flat := by
          rw [← hp.tree_eq, p.flat_tree]
          exact List.mem_append.2 (.inr (List.mem_append.2 (.inr (List.mem_append.2 (.inr ha)))))
        obtain ⟨d', hmem', hkey', hlt⟩ :=
          hgap a hat (hp.high _ (List.mem_append.2 (.inr ha)))
        have hfound := hp.mem_of_not_lt hmem' hkey'
        rw [hhit, hright] at hfound
        have hord : t.flat.Pairwise (Item.Below env.comparator) := h.ordered
        rw [← hp.tree_eq, p.flat_tree] at hord
        have hord' := (List.pairwise_append.1 (List.pairwise_append.1
          (List.pairwise_append.1 hord).2.1).2.1).2.1
        rw [show Option.toList (none : Option Entry) ++ [] = [] from rfl, recordItems_nil,
          List.nil_append, hafter] at hfound
        rw [hafter] at hord'
        rcases List.mem_cons.1 hfound with heq | hmem
        · cases heq
        · exact absurd hlt ((List.pairwise_cons.1 hord').1 _ hmem)

end LowerBound

/-- **When `LowerBound` is right.** It is wrong when the keys between the key and the next separator
are missing: the descent ends behind the last record of a leaf, and the answer is the first record
of the next one. -/
theorem Shows.findsLeast_iff {env : Env} {t : Shape} {s : TxState} (h : Shows env t s)
    (hfull : t.RootFull) (key : Bytes) : BTree.FindsLeast env t key s ↔
    t.NoGap env.comparator key := by
  cases t with
  | empty =>
    refine ⟨fun _ => trivial,
      fun _ => ⟨_, BTree.lowerBound_empty env key h.root, fun d hd => ?_, ?_⟩⟩
    · exact absurd hd.1 List.not_mem_nil
    · exact ⟨fun _ d hd => absurd hd List.not_mem_nil, fun _ => .inl rfl⟩
  | tree t =>
    obtain ⟨p, hp, hlower⟩ := h.lowerBound key
    cases hnext : p.hit.toList ++ p.right with
    | cons e es =>
      obtain ⟨h₁, h₂⟩ := h.findsLeast_of_next hp hlower hnext
      exact ⟨fun _ => h₂, fun _ => h₁⟩
    | nil =>
      obtain ⟨h₁, h₂⟩ := List.append_eq_nil_iff.1 hnext
      exact h.findsLeast_iff_of_last hfull hp hlower (Option.toList_eq_nil_iff.1 h₁) h₂

section Example

/-- Where a key's gap is closed by a record, `LowerBound` finds it. -/
theorem findsLeast_twoLeaves : BTree.FindsLeast smallEnv (.tree twoLeaves) [3] twoLeavesState :=
  (shows_twoLeaves.findsLeast_iff fullRoot_twoLeaves [3]).2 ⟨by decide, fun a ha hkey => by
    have hseps : ∀ x ∈ twoLeaves.flat, x = .separator x.key → x.key = [2] := by decide
    obtain rfl : a = [2] := hseps _ ha rfl
    exact absurd hkey (by decide)⟩

/-- Three puts into a new file. The first lookup is for a key between the first two, the second one
for the second key. -/
def threePuts : TxM (Bool × Option (Bytes × Bool)) := do
  BTree.put smallEnv [1] longValue false
  BTree.put smallEnv [2] longValue false
  BTree.put smallEnv [9] longValue false
  let iter ← BTree.lowerBound smallEnv [1, 0]
  let found ← BTree.lookup smallEnv [2]
  return (decide iter.isEnd, found)

/-- **`LowerBound` can miss the next leaf.** Between the keys 1 and 2 lies the separator, which
equals the second: `LowerBound` of a key between them is `end()`. -/
theorem not_findsLeast :
    (threePuts (layout 256 freshMeta kPageInvalidId [])).1 = .ok (true, some (longValue, false)) ∧
    ∃ (env : Env) (t : Shape) (s : TxState) (key : Bytes), Shows env t s ∧ t.RootFull ∧
      ¬ BTree.FindsLeast env t key s := by
  refine ⟨by decide +kernel, smallEnv, .tree twoLeaves, twoLeavesState, [1, 0], shows_twoLeaves,
    fullRoot_twoLeaves, fun hfinds => ?_⟩
  obtain ⟨-, hgap⟩ := (shows_twoLeaves.findsLeast_iff fullRoot_twoLeaves [1, 0]).1 hfinds
  obtain ⟨d, hd, hge, hlt⟩ := hgap [2] (by decide) (by decide)
  revert d
  decide

end Example

end AtomKV

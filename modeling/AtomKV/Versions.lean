import AtomKV.Snapshot
import AtomKV.Traversal
import AtomKV.TreeSlots

/-!
# Versions

A version of the database is a committed meta and the pages as they were at its commit. A reader
works on the meta and on the pages that are in the file when it reads. As long as the pages that can
be reached from the version's root are the old ones, it sees the version: `Get` finds its records
and no others, and the iterations run through them.
-/

set_option autoImplicit false

namespace AtomKV

/-- A version: its meta, and the pages of the file at its commit. -/
structure Image where
  info : MetaInfo
  pages : Nat → Page

namespace Image

/-- The page belongs to the version. -/
def Holds (P : Nat) (v : Image) (p : Nat) : Prop := Reachable P v.pages v.info.userRoot p

/-- What a reader of the version works on. -/
def reading (v : Image) (pager : Pager) : TxState := ⟨pager, v.info, v.info.userRoot⟩

/-- What the reader would have worked on at the commit. -/
def state (v : Image) : TxState := v.reading (Pager.ofPages v.pages)

/-- The records of the version. -/
def records (P : Nat) (v : Image) : List (Bytes × Bytes × Bool) :=
  snapshot P v.pages v.info.userRoot

end Image

/-- What is read is the list `l`. -/
structure Sees (env : Env) (l : List (Bytes × Bytes × Bool)) (s : TxState) : Prop where
  get : ∀ key, ∃ iter, BTree.get env key s = (.ok iter, s) ∧
    (∀ d ∈ l, d.1 = key → iter.IsAt env s d) ∧ ((∀ d ∈ l, d.1 ≠ key) → iter.isEnd)
  begin : ∃ iter, BTree.begin s = (.ok iter, s) ∧ iter.Forward env s l
  /-- The iteration from a key. -/
  from_key : ∀ key, (∃ d ∈ l, d.1 = key) → ∃ iter, BTree.get env key s = (.ok iter, s) ∧
    iter.Forward env s (l.filter fun d => env.comparator d.1 key ≠ .lt)

/-- The tree `t` of a transaction is well-formed, and no page is used twice: for a node or a record
of the tree, as a free page or as a pending one. -/
structure Tidy (env : Env) (t : Shape) (s : TxState) : Prop where
  shows : Shows env t s
  full : t.RootFull
  once : ∀ p, objsCount env.pageSize t.objs p + availCount s p + Pager.pendingCount
    s.pager.pendingMap p ≤ 1
  pendingIn : Pager.PendingIn s.pager.pendingMap s.metaStruct.pageCount
  /-- Overflow pages hold bytes, not nodes. -/
  plain : ∀ p n, Reachable env.pageSize s.pager.pages s.rootPgid p → s.pager.pages p = .node n →
    Visits s.pager.pages s.rootPgid p

/-! ## The pages of a tree -/

section Pages

variable {env : Env} {s : TxState}

/-- The overflow pages of a slot are those of its record. -/
theorem NodeRep.slotRun_eq {P : Nat} {v : NodeView} {n : Node} (h : NodeRep P v n) {i : Nat}
    {e : Entry} {slot : Slot} (he : v.entries[i]? = some e)
    (hslot : n.slots[i]? = some slot) (p : Nat) :
    runCount (n.slotRun P slot) p = runCount (e.run, e.pages P) p := by
  obtain ⟨slot', hslot', hhead⟩ := h.slot_of_entry he
  obtain rfl : slot = slot' := Option.some.inj (hslot.symm.trans hslot')
  obtain ⟨hrecord, hkey⟩ := Prod.mk.inj hhead
  -- the size in the slot is the size of the record, in a leaf and in a branch
  have hsize : (slot.keySize + if n.isBranch then 0 else slot.word) = e.size := by
    have hbranch := h.isBranch_eq
    cases hv : v.kids with
    | none =>
      have hword : slot.word = e.value.length := (Prod.mk.inj (h.leafPart_of_entry hv he hslot)).1
      rw [hv] at hbranch
      rw [hbranch, hkey, hword]
      rfl
    | some kids =>
      have hbody := h.body
      rw [hv] at hbody hbranch
      have hvalue : e.value = [] := hbody.2.1 e (List.mem_of_getElem? he)
      rw [hbranch, hkey, Entry.size, hvalue]
      rfl
  unfold Node.slotRun Entry.pages
  rw [hrecord, Entry.record]
  by_cases hover : Node.maxInline P < e.size
  · simp only [if_pos hover, hsize]
  · simp only [if_neg hover, runCount_zero]

/-- The nodes that can be visited are the tree's. -/
theorem Shows.visits {t : Shape} (h : Shows env t s) {p : Nat}
    (hp : Visits s.pager.pages s.rootPgid p) : ∃ v, Obj.node p v ∈ t.objs := by
  induction hp with
  | root hroot =>
    rw [h.root] at hroot ⊢
    cases t with
    | empty => exact absurd rfl hroot
    | tree t => exact t.exists_root
  | @child p x n _ hn hx ih =>
    obtain ⟨⟨txid, es, kids⟩, hm⟩ := ih
    obtain ⟨n', hrep, -, hpage, -⟩ := h.readable.read hm
    obtain rfl : n = n' := Page.node.inj (hn.symm.trans hpage)
    unfold Node.subtrees at hx
    rw [hrep.isBranch_eq] at hx
    cases kids with
    | none => cases hx
    | some kids =>
      have hkids : x ∈ kids := hrep.body.2.2 ▸ hx
      cases t with
      | empty => exact absurd hm (Multiset.notMem_zero _)
      | tree t => exact t.child_mem hm hkids

/-- Every node of a tree can be visited from its root. -/
theorem Tree.visits {d : ℕ} (t : Tree d) (h : Resident env t.objs s) {root : Nat}
    (hroot : Visits s.pager.pages root t.pgid) {q : Nat} {v : NodeView}
    (hm : Obj.node q v ∈ t.objs) : Visits s.pager.pages root q := by
  induction d with
  | zero =>
    obtain ⟨p, txid, es, rfl⟩ := t.exists_leaf
    have hq := Multiset.mem_singleton.1 hm
    obtain ⟨rfl, -⟩ := Obj.node.inj hq
    exact hroot
  | succ d ih =>
    obtain ⟨p, txid, es, kids, len, rfl⟩ := t.exists_branch
    rw [Tree.objs_branch] at hm h
    rcases Multiset.mem_cons.1 hm with heq | hm
    · obtain ⟨rfl, -⟩ := Obj.node.inj heq
      exact hroot
    · obtain ⟨k, hk, hm⟩ := Tree.mem_sum_objs.1 hm
      have hkid : Resident env k.objs s :=
        h.mono fun o ho => Multiset.mem_cons_of_mem (Tree.mem_sum_objs.2 ⟨k, hk, ho⟩)
      refine ih k hkid ?_ hm
      obtain ⟨n, hrep, -, hpage, -⟩ := h.read (Multiset.mem_cons_self _ _)
      refine .child hroot hpage ?_
      unfold Node.subtrees
      rw [hrep.isBranch_eq]
      have hmem : k.pgid ∈ kids.map Tree.pgid := List.mem_map_of_mem hk
      rw [← hrep.body.2.2] at hmem
      exact hmem

theorem Shows.visits_of_mem {t : Shape} (h : Shows env t s) {q : Nat} {v : NodeView}
    (hm : Obj.node q v ∈ t.objs) : Visits s.pager.pages s.rootPgid q := by
  cases t with
  | empty => exact absurd hm (Multiset.notMem_zero _)
  | tree t =>
    refine t.visits h.readable.toResident ?_ hm
    have hroot : s.rootPgid = t.pgid := h.root
    obtain ⟨w, hw⟩ := t.exists_root
    rw [← hroot]
    exact .root (hroot ▸ h.readable.pgid_ne_invalid hw)

/-- The overflow pages of the tree's records can be reached. -/
theorem Shows.reachable_run {t : Shape} (h : Shows env t s) {q : Nat} {v : NodeView}
    (hm : Obj.node q v ∈ t.objs) {e : Entry} (he : e ∈ v.entries) {p : Nat}
    (hp : 0 < runCount (e.run, e.pages env.pageSize) p) :
    Reachable env.pageSize s.pager.pages s.rootPgid p := by
  obtain ⟨n, hrep, -, hpage, -⟩ := h.readable.read hm
  obtain ⟨i, hi⟩ := List.getElem?_of_mem he
  obtain ⟨slot, hslot, -⟩ := hrep.slot_of_entry hi
  rw [← hrep.slotRun_eq hi hslot] at hp
  exact .inr ⟨q, n, slot, h.visits_of_mem hm, hpage, List.mem_of_getElem? hslot, hp⟩

/-- What can be reached belongs to the tree. -/
theorem Shows.count_of_reachable {t : Shape} (h : Shows env t s) {p : Nat}
    (hp : Reachable env.pageSize s.pager.pages s.rootPgid p) :
      0 < objsCount env.pageSize t.objs p := by
  rcases hp with hp | ⟨q, n, slot, hq, hn, hslot, hrun⟩
  · obtain ⟨v, hm⟩ := h.visits hp
    have hself : 0 < runCount (p, 1) p :=
      (runCount_pos_iff _ _).2 ⟨Nat.le_refl _, Nat.lt_succ_self _⟩
    exact Nat.lt_of_lt_of_le (Nat.add_pos_left hself _) (objCount_le_objsCount env.pageSize hm p)
  · obtain ⟨v, hm⟩ := h.visits hq
    obtain ⟨n', hrep, -, hpage, -⟩ := h.readable.read hm
    obtain rfl : n = n' := Page.node.inj (hn.symm.trans hpage)
    obtain ⟨i, hi⟩ := List.getElem?_of_mem hslot
    have hlen : n.slots.length = v.entries.length := hrep.count_eq
    obtain ⟨e, he⟩ : ∃ e, v.entries[i]? = some e := by
      have hlt : i < n.slots.length := (List.getElem?_eq_some_iff.1 hi).1
      exact ⟨_, List.getElem?_eq_getElem (hlen ▸ hlt)⟩
    rw [hrep.slotRun_eq he hi] at hrun
    have hentries := le_entriesCount env.pageSize (List.mem_of_getElem? he) p
    exact Nat.lt_of_lt_of_le (Nat.add_pos_right _ (Nat.lt_of_lt_of_le hrun hentries))
      (objCount_le_objsCount env.pageSize hm p)

/-- The tree is there as long as its pages are. -/
theorem Shows.congr {t : Shape} (h : Shows env t s) {s' : TxState}
    (hroot : s'.rootPgid = s.rootPgid)
    (hpages : ∀ p, Reachable env.pageSize s.pager.pages s.rootPgid p →
      s'.pager.pages p = s.pager.pages p) :
    Shows env t s' where
  root := hroot.trans h.root
  once := h.once
  ordered := h.ordered
  keyed := h.keyed
  readable :=
    { pageSize_pos := h.readable.pageSize_pos
      ok := h.readable.ok
      nodeAt := by
        intro q v hm
        obtain ⟨hlt, n, hpage, hrep, hstored⟩ := h.readable.nodeAt q v hm
        refine ⟨hlt, n, (hpages q (.inl (h.visits_of_mem hm))).trans hpage,
          hrep, fun e he hover => ?_⟩
        rw [← hstored e he hover]
        refine Pager.readBytes_congr h.readable.pageSize_pos fun p h1 h2 =>
          hpages p (h.reachable_run hm he ?_)
        rw [Entry.pages, if_pos hover]
        exact (runCount_pos_iff _ _).2 ⟨h1, h2⟩ }

/-- A page of a well-formed tree is in the file, and it is neither free nor pending. -/
theorem Tidy.inUse {e : Env} {t : Shape} {u : TxState} (h : Tidy e t u) {p : Nat}
    (hp : Reachable e.pageSize u.pager.pages u.rootPgid p) :
    p < u.metaStruct.pageCount ∧ runsCount u.pager.freeMap p = 0 ∧
    Pager.pendingCount u.pager.pendingMap p = 0 := by
  have hcount := h.shows.count_of_reachable hp
  have honce := h.once p
  unfold availCount at honce
  refine ⟨?_, by omega, by omega⟩
  by_contra hnot
  rw [if_pos (Nat.not_lt.1 hnot)] at honce
  omega

end Pages

/-! ## The records of a tree -/

section Contents

variable {env : Env} {s : TxState}

theorem NodeRep.map_slotData {P : Nat} (hP : 0 < P) {txid : Nat} {es : List Entry} {n : Node}
    {pager : Pager} (h : NodeRep P (.leaf txid es) n) (hstored : ∀ e ∈ es, e.Stored P pager) :
    n.slots.map (Node.slotData P pager.pages) = es.map Entry.data := by
  refine List.ext_getElem? fun i => ?_
  rw [List.getElem?_map, List.getElem?_map]
  have hlen : n.slots.length = es.length := h.count_eq
  cases he : es[i]? with
  | none =>
    have hge : es.length ≤ i := List.getElem?_eq_none_iff.1 he
    rw [List.getElem?_eq_none (hlen ▸ hge)]
    rfl
  | some e =>
    obtain ⟨slot, hslot, hhead⟩ := h.slot_of_entry he
    obtain ⟨hword, hbucket⟩ := Prod.mk.inj (h.leafPart_of_entry rfl he hslot)
    have hst : e.Stored P (Pager.ofPages pager.pages) := hstored e (List.mem_of_getElem? he)
    rw [hslot]
    refine congrArg some (Prod.ext ?_ (Prod.ext ?_ hbucket))
    · exact slotKey_eq hP hhead hst
    · exact slotValue_eq hhead hword hst

/-- The records below the root of a tree, from left to right. -/
theorem Tree.snapshotBelow_eq {d : ℕ} (t : Tree d) (h : Resident env t.objs s) {depth : Nat}
    (hdepth : d < depth) :
    snapshotBelow env.pageSize s.pager.pages depth t.pgid = records t.flat := by
  induction d generalizing depth with
  | zero =>
    obtain ⟨p, txid, es, rfl⟩ := t.exists_leaf
    obtain ⟨depth, rfl⟩ := Nat.exists_eq_add_of_lt hdepth
    have hm : Obj.node p (.leaf txid es) ∈ (Tree.leaf p txid es).objs :=
      Multiset.mem_singleton_self _
    obtain ⟨n, hrep, -, hpage, hstored⟩ := h.read hm
    -- a leaf: its slots are read off the page
    have hbranch : n.isBranch = false := hrep.isBranch_eq
    rw [Tree.flat_leaf, records_recordItems, Tree.pgid_leaf]
    unfold snapshotBelow
    rw [hpage]
    simp only [hbranch, Bool.false_eq_true, if_false]
    exact hrep.map_slotData h.pageSize_pos hstored
  | succ d ih =>
    obtain ⟨p, txid, es, kids, len, rfl⟩ := t.exists_branch
    obtain ⟨depth, rfl⟩ := Nat.exists_eq_add_of_lt hdepth
    rw [Tree.objs_branch] at h
    obtain ⟨n, hrep, -, hpage, -⟩ := h.read (Multiset.mem_cons_self _ _)
    -- a branch: the trees of its children are read one after another
    have hbranch : n.isBranch = true := hrep.isBranch_eq
    have hkids : n.subtrees = kids.map Tree.pgid := by
      unfold Node.subtrees
      rw [if_pos hbranch]
      exact hrep.body.2.2
    rw [Tree.flat_branch, records_weave _ _ (by rw [List.length_map, len]), Tree.pgid_branch]
    unfold snapshotBelow
    rw [hpage]
    simp only [hbranch, if_true, hkids, List.flatMap_map]
    refine List.flatMap_congr fun k hk => ih k (h.mono fun o ho => ?_) (by omega)
    exact Multiset.mem_cons_of_mem (Tree.mem_sum_objs.2 ⟨k, hk, ho⟩)

/-- The snapshot of the root is the contents of the tree. -/
theorem Shows.snapshot_eq {t : Shape} (h : Shows env t s) :
    snapshot env.pageSize s.pager.pages s.rootPgid = t.contents := by
  unfold snapshot
  cases t with
  | empty => exact if_pos h.root
  | tree t =>
    have hroot : s.rootPgid = t.pgid := h.root
    obtain ⟨w, hw⟩ := t.exists_root
    rw [hroot, if_neg (h.readable.pgid_ne_invalid hw)]
    exact t.snapshotBelow_eq h.readable.toResident h.depth_lt

/-- A tree that can be read is seen. -/
theorem Shows.sees {t : Shape} (h : Shows env t s) (hfull : t.RootFull) :
    Sees env t.contents s where
  get := fun key => by
    obtain ⟨iter, hrun, hfound, hend⟩ := h.get_finds key
    refine ⟨iter, hrun, hfound, fun hno => ?_⟩
    rw [hend hno]
    exact .inl rfl
  begin := (h.forward_reads hfull).2.1
  from_key := (h.forward_reads hfull).2.2

end Contents

/-! ## Small trees -/

section Small

variable {env : Env} {s : TxState}

theorem Shows.of_empty (ok : env.Ok) (hroot : s.rootPgid = kPageInvalidId) :
    Shows env .empty s where
  root := hroot
  readable :=
    { pageSize_pos := Nat.lt_of_lt_of_le (by decide) ok.pageSize.min
      nodeAt := fun _ _ hm => absurd hm (Multiset.notMem_zero _)
      ok := ok }
  once := fun _ => Nat.zero_le _
  ordered := List.Pairwise.nil
  keyed := trivial

/-- A root leaf whose records are all in the page. -/
theorem Shows.of_leaf (ok : env.Ok) {p txid : Nat} {es : List Entry}
    (hlays : (NodeView.leaf txid es).Lays env.pageSize)
    (hord : (Tree.leaf p txid es).Ordered env.comparator) (hroot : s.rootPgid = p)
    (hlt : p < kPageMaxCount)
    (hpage : s.pager.pages p = .node ((NodeView.leaf txid es).image env.pageSize)) :
    Shows env (.tree (Tree.leaf p txid es)) s where
  root := hroot
  readable :=
    { pageSize_pos := Nat.lt_of_lt_of_le (by decide) ok.pageSize.min
      nodeAt := fun q v hm => by
        obtain ⟨rfl, rfl⟩ := Obj.node.inj (Multiset.mem_singleton.1 hm)
        refine ⟨hlt, _, hpage, NodeView.rep_image ok.pageSize hlays, fun e he hover => ?_⟩
        exact absurd (hlays.inline e he) (Nat.not_le.2 hover)
      ok := ok }
  once := fun x => by
    show nodeCount (Obj.node p (.leaf txid es) ::ₘ 0) x ≤ 1
    rw [nodeCount_cons_node, nodeCount_zero]
    split_ifs
    · exact Nat.le_refl 1
    · exact Nat.zero_le 1
  ordered := hord
  keyed := trivial

theorem Tidy.of_empty (ok : env.Ok) (hroot : s.rootPgid = kPageInvalidId)
    (honce : ∀ p, availCount s p + Pager.pendingCount s.pager.pendingMap p ≤ 1)
    (hpending : Pager.PendingIn s.pager.pendingMap s.metaStruct.pageCount) : Tidy env .empty s where
  shows := .of_empty ok hroot
  full := trivial
  once := fun p => by
    show 0 + availCount s p + _ ≤ 1
    rw [Nat.zero_add]
    exact honce p
  pendingIn := hpending
  plain := fun p n hp _ => by
    have hcount := (Shows.of_empty ok hroot).count_of_reachable hp
    exact absurd hcount (Nat.lt_irrefl _)

/-- A root leaf whose page is neither free nor pending. -/
theorem Tidy.of_leaf (ok : env.Ok) {p txid : Nat} {es : List Entry}
    (hlays : (NodeView.leaf txid es).Lays env.pageSize)
    (hord : (Tree.leaf p txid es).Ordered env.comparator) (hroot : s.rootPgid = p)
    (hlt : p < kPageMaxCount)
    (hpage : s.pager.pages p = .node ((NodeView.leaf txid es).image env.pageSize))
    (honce : ∀ q, [p].count q + availCount s q + Pager.pendingCount s.pager.pendingMap q ≤ 1)
    (hpending : Pager.PendingIn s.pager.pendingMap s.metaStruct.pageCount) :
    Tidy env (.tree (Tree.leaf p txid es)) s := by
  have hshows := Shows.of_leaf ok hlays hord hroot hlt hpage
  have hall : ∀ n ∈ [(p, NodeView.leaf txid es)], n.2.Lays env.pageSize := fun n hn => by
    rw [List.mem_singleton.1 hn]
    exact hlays
  have hcount : ∀ q, objsCount env.pageSize (Shape.tree (Tree.leaf p txid es)).objs q =
      [p].count q :=
    fun q => objsCount_nodeObjs hall q
  refine ⟨hshows, trivial, fun q => ?_, hpending, fun q n hq _ => ?_⟩
  · rw [hcount]
    exact honce q
  · -- the only page is the root
    have hpos := hshows.count_of_reachable hq
    rw [hcount] at hpos
    obtain rfl := List.mem_singleton.1 (List.count_pos_iff.1 hpos)
    exact hshows.visits_of_mem (Multiset.mem_singleton_self _)

end Small

end AtomKV
